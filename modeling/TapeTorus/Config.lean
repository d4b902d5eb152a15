import TapeTorus.Error

/-!
# Configuration

How programs are executed, how large the world is, and which set-ups can be
simulated at all.
-/

namespace TapeTorus

/-- How a tick executes programs. -/
structure Exec where
  /-- Registers survive from tick to tick, and a tick executes one instruction
  per program.  Otherwise a tick runs every program from its start to a halt. -/
  persist : Bool
  /-- The zero byte halts a program instead of doing nothing. -/
  haltOnZero : Bool
  /-- The most instructions that a program runs in one tick, if set. -/
  maxIterations : Option Nat
  deriving DecidableEq

namespace Exec

def persistent : Exec := ⟨true, false, none⟩

def runToCompletion : Exec := { persistent with persist := false }

/-- The iteration bound where none is set: four passes over the tape, but at
least 256 instructions. -/
def defaultIterationLimit (tapeLength : Nat) : Except Fault Nat := do
  let passes ← Size.mul 4 tapeLength
  return max passes 256

def iterationLimit (e : Exec) (tapeLength : Nat) : Except Fault Nat :=
  match e.maxIterations with
  | some n => .ok n
  | none => defaultIterationLimit tapeLength

end Exec

structure Config where
  tapeLength : Nat
  width : Nat
  height : Nat
  exec : Exec
  /-- How many workers share a tick; the machine's choice if not set. -/
  threads : Option Nat
  deriving DecidableEq

namespace Config

def standard : Config := ⟨16, 256, 256, Exec.persistent, none⟩

/-- A square world whose tapes are drawn as squares of the given side. -/
def square (tapeSide worldSize : Nat) : Except Fault Config := do
  let tapeLength ← Size.mul tapeSide tapeSide
  return { standard with tapeLength := tapeLength, width := worldSize, height := worldSize }

def programs (c : Config) : Except Fault Nat := Size.mul c.width c.height

/-- Refuses the set-ups that cannot be simulated. -/
def validate (c : Config) : Except Error Unit := do
  Error.require (0 < c.tapeLength) .emptyTape
  Error.require (c.tapeLength < 0x1_0000_0000) (.longTape c.tapeLength)
  Error.require (0 < c.width ∧ 0 < c.height) (.emptyGrid c.width c.height)
  Error.require (c.width * c.height < Size.limit) (.gridTooLarge c.width c.height)
  Error.require (c.width * c.height * c.tapeLength < Size.limit)
    (.tooManyCells (c.width * c.height) c.tapeLength)
  Error.require (c.threads ≠ some 0) .noThreads
  Error.require (c.exec.maxIterations ≠ some 0) .noIterations

theorem validate_eq_ok_iff (c : Config) : c.validate = .ok () ↔
    (0 < c.tapeLength ∧ c.tapeLength < 0x1_0000_0000) ∧ (0 < c.width ∧ 0 < c.height) ∧
      c.width * c.height < Size.limit ∧ c.width * c.height * c.tapeLength < Size.limit ∧
      c.threads ≠ some 0 ∧ c.exec.maxIterations ≠ some 0 := by
  simp only [validate, bind_eq_ok_iff, exists_const, Error.require_eq_ok_iff, and_assoc]

end Config

/-! ## Grid sizes as text -/

namespace GridSize

/-- The two texts around the only `x`. -/
def sides? (text : List Char) : Option (List Char × List Char) :=
  match text.dropWhile (· != 'x') with
  | [] => none
  | _ :: right => if 'x' ∈ right then none else some (text.takeWhile (· != 'x'), right)

/-- Reads a grid size such as `256x128`. -/
def parse (text : String) : Except Error (Nat × Nat) :=
  match sides? text.toList with
  | none => .error (.config (.gridFormat text))
  | some (left, right) => do
    let width ← (Numeral.read left).mapError (.config ∘ .gridWidth)
    let height ← (Numeral.read right).mapError (.config ∘ .gridHeight)
    Error.require (0 < width ∧ 0 < height) .gridZero
    return (width, height)

end GridSize
end TapeTorus
