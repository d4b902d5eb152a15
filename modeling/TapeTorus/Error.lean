import TapeTorus.Numeral
import TapeTorus.Registers

/-!
# Errors

Set-up, file and image failures, each by its cause.  The wording is in
`Error.message` alone.
-/

namespace TapeTorus

/-- Why a set-up or a host buffer is refused. -/
inductive ConfigError where
  | emptyTape
  | longTape (tapeLength : Nat)
  | emptyGrid (width height : Nat)
  | gridTooLarge (width height : Nat)
  | tooManyPrograms (width height : Nat)
  | tooManyCells (programs tapeLength : Nat)
  | noThreads
  | noIterations
  | emptyStore (tapeLength programs : Nat)
  | storeTooLarge (programs tapeLength : Nat)
  | raggedCells (cells tapeLength : Nat)
  | cellCount (expected got : Nat)
  | tapeBuffer (cells programs tapeLength expected : Nat)
  | raggedRegisters (values : Nat)
  | registersOutside (program : Nat) (registers : Registers) (tapeLength : Nat)
  | registersExceed (registers : Registers) (tapeLength : Nat)
  | unknownProgram (program programs : Nat)
  | registerCount (held programs : Nat)
  | gridFormat (text : String)
  | gridWidth (cause : NumeralError)
  | gridHeight (cause : NumeralError)
  | gridZero
  | notSquare (tapeLength : Nat)
  | frameBuffer (cells gridWidth gridHeight tapeLength expected : Nat)
  deriving DecidableEq

def ConfigError.message : ConfigError → String
  | .emptyTape => "tape_length must be positive"
  | .longTape l => s!"tape_length {l} does not fit the 32-bit register layout"
  | .emptyGrid w h => s!"grid dimensions must be positive, got {w}x{h}"
  | .gridTooLarge w h => s!"grid {w}x{h} overflows"
  | .tooManyPrograms w h => s!"grid {w}x{h} overflows the program count"
  | .tooManyCells n l => s!"{n} programs x {l} cells overflows"
  | .noThreads => "threads must be positive"
  | .noIterations => "max_iterations must be positive"
  | .emptyStore l n =>
    s!"tape store needs positive dimensions, got tape_length={l} programs={n}"
  | .storeTooLarge n l => s!"tape store of {n} x {l} cells overflows"
  | .raggedCells c l => s!"buffer of {c} cells is not a whole number of {l}-cell tapes"
  | .cellCount e g => s!"expected {e} cells, got {g}"
  | .tapeBuffer c n l e => s!"tape buffer has {c} cells, {n} programs x {l} cells needs {e}"
  | .raggedRegisters v => s!"register buffer length {v} is not a multiple of 3"
  | .registersOutside p r l =>
    s!"registers of program {p} (" ++ r.text ++ s!") exceed tape length {l}"
  | .registersExceed r l => "registers " ++ r.text ++ s!" exceed tape length {l}"
  | .unknownProgram p n => s!"program {p} out of range for {n} programs"
  | .registerCount k n => s!"register buffer holds {k} programs, grid has {n}"
  | .gridFormat s => "Invalid grid format '" ++ s ++ "', expected WxH (e.g. 256x128)"
  | .gridWidth e => "Invalid grid width: " ++ e.message
  | .gridHeight e => "Invalid grid height: " ++ e.message
  | .gridZero => "Grid dimensions must be positive"
  | .notSquare l => s!"tape length {l} is not a positive perfect square, cannot lay it out"
  | .frameBuffer c w h l e =>
    s!"tape buffer has {c} cells, {w}x{h} world of {l}-cell tapes needs {e}"

/-- Why a file or directory cannot be made. -/
inductive FileError where
  | notFound
  | alreadyExists
  | notDirectory
  | isDirectory
  | nameTooLong
  | nulInName
  | other (text : String)
  deriving DecidableEq

def FileError.message : FileError → String
  | .notFound => "No such file or directory (os error 2)"
  | .alreadyExists => "File exists (os error 17)"
  | .notDirectory => "Not a directory (os error 20)"
  | .isDirectory => "Is a directory (os error 21)"
  | .nameTooLong => "File name too long (os error 36)"
  | .nulInName => "file name contained an unexpected NUL byte"
  | .other text => text

/-- Why an image cannot be encoded. -/
inductive ImageError where
  | zeroWidth
  | zeroHeight
  | dataSize (expected got : Nat)
  /-- What has been encoded cannot be written. -/
  | access (cause : FileError)
  deriving DecidableEq

def ImageError.message : ImageError → String
  | .zeroWidth => "Zero width not allowed"
  | .zeroHeight => "Zero height not allowed"
  | .dataSize e g => s!"wrong data size, expected {e} got {g}"
  | .access e => e.message

/-- Whatever keeps an operation from giving its result. -/
inductive Error where
  | config (cause : ConfigError)
  | file (cause : FileError)
  | image (cause : ImageError)
  | fault (cause : Fault)
  deriving DecidableEq

namespace Error

def message : Error → String
  | config e => "Configuration error: " ++ e.message
  | file e => "IO error: " ++ e.message
  | image e => "PNG encoding error: " ++ e.message
  | fault .overflow => "arithmetic overflow"
  | fault .outOfRange => "index out of range"
  | fault .capacity => "capacity overflow"

/-- Refuses a set-up for the given cause unless the condition holds. -/
def require (p : Prop) [Decidable p] (cause : ConfigError) : Except Error Unit :=
  if p then .ok () else .error (.config cause)

theorem require_eq_ok_iff {p : Prop} [Decidable p] {cause : ConfigError} {u : Unit} :
    require p cause = .ok u ↔ p := by
  unfold require
  split <;> simp_all

theorem require_eq_ok {p : Prop} [Decidable p] {cause : ConfigError} (h : p) :
    require p cause = .ok () := if_pos h

theorem require_eq_error {p : Prop} [Decidable p] {cause : ConfigError} (h : ¬p) :
    require p cause = .error (.config cause) := if_neg h

end Error

/-- A computation that can only fault, among those that can also be refused. -/
def Fault.lift {α : Type} (x : Except Fault α) : Except Error α := x.mapError .fault

@[simp] theorem Fault.lift_ok {α : Type} (a : α) : Fault.lift (.ok a) = .ok a := rfl

@[simp] theorem Fault.lift_error {α : Type} (f : Fault) :
    Fault.lift (.error f : Except Fault α) = .error (.fault f) := rfl

theorem Fault.lift_eq_ok_iff {α : Type} {x : Except Fault α} {a : α} :
    Fault.lift x = .ok a ↔ x = .ok a := by
  cases x <;> simp

end TapeTorus
