import Std.Data.HashSet
import TapeTorus.Binary64
import TapeTorus.Instruction

/-!
# Metrics

Counts over a population, the cells of all tapes as one array of bytes.
-/

namespace TapeTorus.Metrics

/-- The whole tapes of a population; a shorter rest is left out. -/
def wholeTapes (tapeLength : Nat) (population : Array UInt8) : List (List UInt8) :=
  (List.range (population.size / tapeLength)).map fun i =>
    (population.extract (i * tapeLength) ((i + 1) * tapeLength)).toList

/-- The number of different whole tapes; none if tapes have no cells. -/
def uniqueCount (population : Array UInt8) (tapeLength : Nat) : Nat :=
  if tapeLength = 0 then 0
  else ((wholeTapes tapeLength population).foldl Std.HashSet.insert
    (∅ : Std.HashSet (List UInt8))).size

def zeroCount (population : Array UInt8) : Nat := population.countP (· == 0)

/-- How often each of the 256 byte values occurs. -/
def histogram (population : Array UInt8) : Array Nat :=
  population.foldl (fun counts b => counts.modify b.toNat (· + 1)) (Array.replicate 256 0)

/-- The cells that hold an instruction. -/
def codeCount (population : Array UInt8) : Nat := population.countP Instruction.isCode

/-- The share of cells that hold an instruction; zero for no cells. -/
def codeDensity (population : Array UInt8) : Binary64 :=
  if population.size = 0 then .zero else .ofQuotient (codeCount population) population.size

/-- The compressed size over the size; zero for no cells.  It is near one for random tapes, and
near zero once tapes are copies of each other. -/
def entropy (compressedSize : Array UInt8 → Nat) (population : Array UInt8) : Binary64 :=
  if population.size = 0 then .zero else .ofQuotient (compressedSize population) population.size

/-- Of a count and a byte value, and another count and byte value: the first count is the
greater one, or they are equal and the first value is the lesser one. -/
def outranks (a b : Nat × Nat) : Bool := b.1 < a.1 || (a.1 == b.1 && a.2 < b.2)

/-- The last of the entries that none outranks. -/
def leader? (entries : List (Nat × Nat)) : Option (Nat × Nat) :=
  entries.foldl (fun leader entry =>
    match leader with
    | some best => if outranks best entry then some best else some entry
    | none => some entry) none

/-- The byte value that leads the histogram. -/
def topByte (population : Array UInt8) : Nat :=
  match leader? (histogram population).toList.zipIdx with
  | some (_, byte) => byte
  | none => 0

end TapeTorus.Metrics
