import TapeTorus.Binary64
import TapeTorus.Error
import TapeTorus.Instruction

/-!
# Frames

A frame shows every cell as a pixel.  Each tape is a square, row by row, and the
squares are laid out as the programs are on the torus.
-/

namespace TapeTorus

structure Color where
  red : UInt8
  green : UInt8
  blue : UInt8
  deriving DecidableEq

namespace Color

def ofInstruction : Instruction → Color
  | .head0Left => ⟨0, 64, 255⟩
  | .head0Right => ⟨64, 64, 255⟩
  | .head1Left => ⟨0, 64, 255⟩
  | .head1Right => ⟨0, 128, 255⟩
  | .increment => ⟨255, 0, 192⟩
  | .decrement => ⟨192, 0, 192⟩
  | .pull => ⟨255, 0, 192⟩
  | .push => ⟨192, 64, 192⟩
  | .loopStart => ⟨0, 192, 0⟩
  | .loopEnd => ⟨64, 192, 0⟩

/-- A grey that grows with the value, up to white at 1024. -/
def grey (value : Nat) : Color :=
  let level := UInt8.ofNat (min value 1024 * 255 / 1024)
  ⟨level, level, level⟩

/-- The colour of a cell: its own for each instruction, a grey for the rest. -/
def ofCell (value : UInt32) : Color :=
  if value.toNat < 256 then
    match Instruction.ofByte? value.toUInt8 with
    | some i => ofInstruction i
    | none => grey value.toNat
  else grey value.toNat

end Color

structure Frame where
  width : Nat
  height : Nat
  pixels : Array UInt8

namespace Frame

/-- The side of the square that a tape is drawn as, if its length is a square. -/
def tapeSide (tapeLength : Nat) : Except Fault (Option Nat) := do
  let side := (Binary64.ofNat tapeLength).sqrt.roundToNat
  let area ← Size.mul side side
  return if area = tapeLength then some side else none

/-- Which cell the pixel at column `x` of row `y` shows. -/
def cellOf (side tapeLength gridWidth x y : Nat) : Nat :=
  (y / side * gridWidth + x / side) * tapeLength + (y % side * side + x % side)

def paint (cells : Array UInt32) (side tapeLength gridWidth width : Nat) (pixels : Array UInt8)
    (i : Nat) : Except Fault (Array UInt8) :=
  match cells[cellOf side tapeLength gridWidth (i % width) (i / width)]? with
  | some value =>
    let c := Color.ofCell value
    .ok (((pixels.push c.red).push c.green).push c.blue)
  | none => .error .outOfRange

/-- The frame of a world of `gridWidth × gridHeight` tapes. -/
def render (cells : Array UInt32) (tapeLength gridWidth gridHeight : Nat) :
    Except Error Frame := do
  let root ← Fault.lift (tapeSide tapeLength)
  let side := root.getD 0
  Error.require (0 < side) (.notSquare tapeLength)
  let perRow ← Fault.lift (Size.mul tapeLength gridWidth)
  let expected ← Fault.lift (Size.mul perRow gridHeight)
  Error.require (cells.size = expected)
    (.frameBuffer cells.size gridWidth gridHeight tapeLength expected)
  let width ← Fault.lift (Size.mul side gridWidth)
  let height ← Fault.lift (Size.mul side gridHeight)
  let area ← Fault.lift (Size.mul width height)
  let _ ← Fault.lift (Size.mul area 3)
  let pixels ← Fault.lift
    ((List.range area).foldlM (paint cells side tapeLength gridWidth width) #[])
  return ⟨width, height, pixels⟩

/-- The pixel at column `x` of row `y`. -/
def pixel (f : Frame) (x y : Nat) : Except Fault Color := do
  let above ← Size.mul y f.width
  let before ← Size.add above x
  let i ← Size.mul before 3
  match f.pixels[i]?, f.pixels[i + 1]?, f.pixels[i + 2]? with
  | some r, some g, some b => .ok ⟨r, g, b⟩
  | _, _, _ => .error .outOfRange

end Frame
end TapeTorus
