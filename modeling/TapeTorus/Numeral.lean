import TapeTorus.Size

/-!
# Numerals

Sizes are written in decimal: an optional plus sign, then one or more ASCII
digits.  Leading zeros are allowed.
-/

namespace TapeTorus

/-- Why a text is not the numeral of a size. -/
inductive NumeralError where
  | empty
  | invalidDigit
  | tooLarge
  deriving DecidableEq

def NumeralError.message : NumeralError → String
  | .empty => "cannot parse integer from empty string"
  | .invalidDigit => "invalid digit found in string"
  | .tooLarge => "number too large to fit in target type"

namespace Numeral

def digit? (c : Char) : Option Nat :=
  if c.isDigit then some (c.toNat - '0'.toNat) else none

/-- Continues the numeral `acc` with the digits that follow.  The first bad
character and the first value past the range are reported, whichever is earlier. -/
def readDigits (acc : Nat) : List Char → Except NumeralError Nat
  | [] => .ok acc
  | c :: cs =>
    match digit? c with
    | none => .error .invalidDigit
    | some d =>
      if 10 * acc + d < Size.limit then readDigits (10 * acc + d) cs else .error .tooLarge

/-- Reads the numeral of a size. -/
def read : List Char → Except NumeralError Nat
  | [] => .error .empty
  | ['+'] => .error .invalidDigit
  | '+' :: cs => readDigits 0 cs
  | cs => readDigits 0 cs

/-- Reads the numeral of a size below `bound`; zero may carry a minus sign. -/
def readBelow? (bound : Nat) : List Char → Option Nat
  | '-' :: cs => if cs ≠ [] ∧ cs.all (· = '0') then some 0 else none
  | cs =>
    match read cs with
    | .ok n => if n < bound then some n else none
    | .error _ => none

end Numeral
end TapeTorus
