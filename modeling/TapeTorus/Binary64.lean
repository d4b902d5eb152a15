/-!
# Rounding to 53 bits

Nonnegative numbers of 53 significant bits: the nearest one to a natural number,
a quotient or a root, ties going to the even neighbour, and its decimal text.
Everything is computed with natural numbers.
-/

namespace TapeTorus

/-- The number `significand * 2 ^ exponent`. -/
structure Binary64 where
  significand : Nat
  exponent : Int
  deriving DecidableEq

namespace Binary64

def zero : Binary64 := ⟨0, 0⟩

/-- Rounds a number between `q * 2 ^ exponent` and `(q + 1) * 2 ^ exponent` to 53
bits.  It is the former itself unless `inexact`, in which case `q` must have more
than 53 bits. -/
def round (q : Nat) (inexact : Bool) (exponent : Int) : Binary64 :=
  if q < Nat.pow 2 53 then ⟨q, exponent⟩
  else
    let shift := q.log2 - 52
    let unit := Nat.pow 2 shift
    let kept := q / unit
    let dropped := 2 * (q % unit)
    if dropped > unit ∨ (dropped = unit ∧ (inexact ∨ kept % 2 = 1)) then
      ⟨kept + 1, exponent + shift⟩
    else ⟨kept, exponent + shift⟩

def ofNat (n : Nat) : Binary64 := round n false 0

/-- The nearest number to the quotient of `a` and a positive `b`. -/
def ofQuotient (a b : Nat) : Binary64 :=
  if a = 0 then zero
  else
    let shift := 55 + b.log2
    let scaled := a * Nat.pow 2 shift
    round (scaled / b) (scaled % b ≠ 0) (-(shift : Int))

def floorRoot (n : Nat) : Nat :=
  if n = 0 then 0
  else
    let root := 2 * floorRoot (n / 4)
    if (root + 1) * (root + 1) ≤ n then root + 1 else root
termination_by n

def sqrt (x : Binary64) : Binary64 :=
  let shift := 110 + (x.exponent % 2).toNat
  let scaled := x.significand * Nat.pow 2 shift
  let root := floorRoot scaled
  round root (root * root ≠ scaled) ((x.exponent - shift) / 2)

def roundToNat (x : Binary64) : Nat :=
  if 0 ≤ x.exponent then x.significand * Nat.pow 2 x.exponent.toNat
  else
    let unit := Nat.pow 2 (-x.exponent).toNat
    (2 * x.significand + unit) / (2 * unit)

/-- The 64-bit pattern of a number in the normal range, or of zero. -/
def bits (x : Binary64) : Nat :=
  if x.significand = 0 then 0
  else
    let top := x.significand.log2
    let fraction :=
      if top ≤ 52 then x.significand * Nat.pow 2 (52 - top)
      else x.significand / Nat.pow 2 (top - 52)
    (x.exponent + top + 1023).toNat * Nat.pow 2 52 + (fraction - Nat.pow 2 52)

/-- The number times `10 ^ places`, rounded to an integer, ties to the even neighbour. -/
def scaledDecimal (x : Binary64) (places : Nat) : Nat :=
  let scaled := x.significand * Nat.pow 10 places
  if 0 ≤ x.exponent then scaled * Nat.pow 2 x.exponent.toNat
  else
    let unit := Nat.pow 2 (-x.exponent).toNat
    let low := 2 * (scaled % unit)
    let kept := scaled / unit
    if low > unit ∨ (low = unit ∧ kept % 2 = 1) then kept + 1 else kept

/-- Decimal text with the given number of places; without any there is no point. -/
def toFixed (x : Binary64) (places : Nat) : String :=
  let n := x.scaledDecimal places
  if places = 0 then toString n
  else
    let unit := Nat.pow 10 places
    let fraction := toString (n % unit)
    toString (n / unit) ++ "."
      ++ String.ofList (List.replicate (places - fraction.length) '0') ++ fraction

end Binary64
end TapeTorus
