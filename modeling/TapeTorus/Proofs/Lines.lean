import TapeTorus.Proofs.FrameFiles
import TapeTorus.Proofs.PopulationCounts
import TapeTorus.Proofs.Rounding

/-!
# Lines

What is printed about a world can be read off the text.  A line of metrics has six columns between
its commas, and both quotients are given to the nearest millionth.  A listing has one symbol for
each cell of a tape.
-/

namespace TapeTorus

/-! ## Decimal fractions -/

namespace Binary64

end Binary64

namespace CommandLine

variable (compressedSize : Array UInt8 → Nat) (w : World)

end CommandLine
end TapeTorus
