import TapeTorus.Proofs.Rounding

/-!
# Sides of tapes

The side that a tape is drawn with is the root of its length, rounded twice on the way.  For
every length that is a square the two errors together stay below a half, so that the side is
the exact root.  The lengths that are not squares are told by the area of the side; but just
below `2 ^ 64` the root is rounded to `2 ^ 32`, whose area is no size.
-/

namespace TapeTorus

namespace Binary64

private theorem roundToNat_sqrt_square {side : Nat} (hside : side < 2 ^ 32) :
    (ofNat (side * side)).sqrt.roundToNat = side := by
  have hconverted := (ofNat_roundedFrom (side * side)).abs_sub_le
  have hroot := (sqrt_roundedFrom (ofNat (side * side))).abs_sub_le
  have hx := (ofNat (side * side)).value_nonneg
  generalize (ofNat (side * side)).value = x at hconverted hroot hx
  generalize (ofNat (side * side)).sqrt = s at hroot ⊢
  have hs : (0 : ℝ) ≤ side := Nat.cast_nonneg side
  have hlt : (side : ℝ) < 2 ^ 32 := by exact_mod_cast hside
  push_cast at hconverted
  obtain ⟨hbelow, habove⟩ := abs_le.1 hconverted
  have hlow : side * (1 - 1 / 2 ^ 53) ≤ √x := by
    apply Real.le_sqrt_of_sq_le
    nlinarith
  have hhigh : √x ≤ side * (1 + 1 / 2 ^ 53) := by
    rw [Real.sqrt_le_left (by positivity)]
    nlinarith
  obtain ⟨hbelow', habove'⟩ := abs_le.1 hroot
  apply roundToNat_eq
  rw [abs_lt]
  constructor
  · nlinarith
  · nlinarith

/-- The root is rounded to `2 ^ 32` from the number on whose root is nearer to it than to the
midpoint below it. -/
theorem le_roundToNat_sqrt_iff {n : Nat} :
    2 ^ 32 ≤ (ofNat n).sqrt.roundToNat ↔ 2 ^ 64 - 2 ^ 32 - 2 ^ 10 ≤ n := by
  have hconverted := ofNat_roundedFrom n
  have hroot := sqrt_roundedFrom (ofNat n)
  have hsignificand := hconverted.significand_le
  calc 2 ^ 32 ≤ (ofNat n).sqrt.roundToNat
      ↔ (2 ^ 53 - 2 ^ 20 : Nat) * (2 : ℝ) ^ (-21 : Int) ≤ (ofNat n).sqrt.value := by
        rw [le_roundToNat_iff]
        norm_num
    _ ↔ ((2 ^ 53 - 2 ^ 20 : Nat) - 1 / 2) * (2 : ℝ) ^ (-21 : Int) ≤ √(ofNat n).value :=
        hroot.le_value_iff (by decide) (by norm_num) (by norm_num) (-21)
    _ ↔ (((2 ^ 53 - 2 ^ 20 : Nat) - 1 / 2) * (2 : ℝ) ^ (-21 : Int)) ^ 2 ≤ (ofNat n).value :=
        Real.le_sqrt' (by norm_num)
    _ ↔ (2 ^ 53 - 2 ^ 21 : Nat) * (2 : ℝ) ^ (11 : Int) ≤ (ofNat n).value := by
        constructor
        · intro h
          exact next_le_value hsignificand (by norm_num) (lt_of_lt_of_le (by norm_num) h)
        · intro h
          exact le_trans (by norm_num) h
    _ ↔ ((2 ^ 53 - 2 ^ 21 : Nat) - 1 / 2) * (2 : ℝ) ^ (11 : Int) ≤ n :=
        hconverted.le_value_iff (by decide) (by norm_num) (by norm_num) 11
    _ ↔ 2 ^ 64 - 2 ^ 32 - 2 ^ 10 ≤ n := by
        have hbound : ((2 ^ 53 - 2 ^ 21 : Nat) - 1 / 2) * (2 : ℝ) ^ (11 : Int) =
            (2 ^ 64 - 2 ^ 32 - 2 ^ 10 : Nat) := by norm_num
        rw [hbound, Nat.cast_le]

end Binary64

namespace Frame

open Binary64

/-- From this length on the root of a length is rounded to `2 ^ 32`. -/
def rootLimit : Nat := 2 ^ 64 - 2 ^ 32 - 2 ^ 10

/-- The area of the rounded root, to which the tape length is compared, is no size. -/
theorem tapeSide_eq_overflow {tapeLength : Nat} (h : rootLimit ≤ tapeLength) :
    tapeSide tapeLength = .error .overflow := by
  have hside := le_roundToNat_sqrt_iff.2 h
  have harea : ¬(ofNat tapeLength).sqrt.roundToNat * (ofNat tapeLength).sqrt.roundToNat <
      Size.limit := by
    rw [Size.area_lt_iff]
    exact Nat.not_lt.2 hside
  rw [tapeSide, Size.mul_eq_error harea]
  rfl

theorem tapeSide_eq_some {side : Nat} (h : side * side < Size.limit) :
    tapeSide (side * side) = .ok (some side) := by
  rw [tapeSide, roundToNat_sqrt_square (Size.area_lt_iff.1 h), Size.mul_eq_ok h, ok_bind,
    if_pos rfl]
  rfl

theorem tapeSide_eq_none {tapeLength : Nat} (h : tapeLength < rootLimit)
    (hsquare : ∀ side, side * side ≠ tapeLength) : tapeSide tapeLength = .ok none := by
  have hside : (ofNat tapeLength).sqrt.roundToNat < 2 ^ 32 :=
    Nat.lt_of_not_le fun hle => absurd (le_roundToNat_sqrt_iff.1 hle) (Nat.not_le_of_lt h)
  rw [tapeSide, Size.mul_eq_ok (Size.area_lt_iff.2 hside), ok_bind, if_neg (hsquare _)]
  rfl

/-- A side that is found is the exact root. -/
theorem square_of_tapeSide {tapeLength side : Nat} (h : tapeSide tapeLength = .ok (some side)) :
    side * side = tapeLength := by
  obtain ⟨area, harea, h⟩ := bind_eq_ok_iff.1 h
  obtain ⟨-, rfl⟩ := Size.mul_eq_ok_iff.1 harea
  by_cases heq : (ofNat tapeLength).sqrt.roundToNat * (ofNat tapeLength).sqrt.roundToNat =
      tapeLength
  · rw [if_pos heq] at h
    obtain rfl := Option.some.inj (Except.ok.inj h)
    exact heq
  · rw [if_neg heq] at h
    cases h

/-- What becomes of a length: a square has its root as side and other lengths have none, but
the lengths whose root is rounded to `2 ^ 32` fault. -/
structure SideOutcome (x : Except Fault (Option Nat)) (tapeLength : Nat) : Prop where
  some_iff : ∀ side, x = .ok (some side) ↔ side * side = tapeLength
  none_iff : x = .ok none ↔ tapeLength < rootLimit ∧ ∀ side, side * side ≠ tapeLength
  overflow_iff : x = .error .overflow ↔ rootLimit ≤ tapeLength

private theorem square_lt_rootLimit {side : Nat} (h : side * side < Size.limit) :
    side * side < rootLimit := by
  have hside : side ≤ 2 ^ 32 - 1 := Nat.le_sub_one_of_lt (Size.area_lt_iff.1 h)
  calc side * side ≤ (2 ^ 32 - 1) * (2 ^ 32 - 1) := Nat.mul_le_mul hside hside
    _ < rootLimit := by decide

/-- The side of a length is an exact test for squares among all sizes below `rootLimit`, and
every square is there.  The lengths from there on are none, but fault. -/
theorem tapeSide_tells_squares {tapeLength : Nat} (h : tapeLength < 2 ^ 64) :
    SideOutcome (tapeSide tapeLength) tapeLength := by
  by_cases hsquare : ∃ side, side * side = tapeLength
  · obtain ⟨side, rfl⟩ := hsquare
    have hlimit := square_lt_rootLimit h
    rw [tapeSide_eq_some h]
    constructor
    · simp [Nat.mul_self_inj, eq_comm]
    · simp
    · simpa using hlimit
  · have hnone : ∀ side, side * side ≠ tapeLength := not_exists.1 hsquare
    by_cases hlimit : tapeLength < rootLimit
    · rw [tapeSide_eq_none hlimit hnone]
      constructor
      · simpa using hnone
      · simp [hlimit, hnone]
      · simpa using hlimit
    · rw [tapeSide_eq_overflow (Nat.le_of_not_lt hlimit)]
      constructor
      · simpa using hnone
      · simp [hlimit]
      · simpa using hlimit

/-- The largest square, its neighbour below, and the first length that faults. -/
theorem tapeSide_tells_squares_largest :
    tapeSide 18446744065119617025 = .ok (some 4294967295) ∧
      tapeSide 18446744065119617024 = .ok none ∧
      tapeSide 18446744069414583296 = .error .overflow := by
  have hneighbour (side : Nat) : side * side ≠ 18446744065119617024 := by
    intro h
    have hlow : 4294967294 < side :=
      Nat.mul_self_lt_mul_self_iff.1 (show 4294967294 * 4294967294 < side * side by omega)
    have hhigh : side < 4294967295 :=
      Nat.mul_self_lt_mul_self_iff.1 (show side * side < 4294967295 * 4294967295 by omega)
    omega
  exact ⟨((tapeSide_tells_squares (by decide)).some_iff _).2 (by decide),
    (tapeSide_tells_squares (by decide)).none_iff.2 ⟨by decide, hneighbour⟩,
    (tapeSide_tells_squares (by decide)).overflow_iff.2 (by decide)⟩

/-- The largest of all sizes is no square, but has a fault for an answer. -/
theorem root_overflow_not_none :
    (∀ side, side * side ≠ 2 ^ 64 - 1) ∧ tapeSide (2 ^ 64 - 1) ≠ .ok none ∧
      tapeSide (2 ^ 64 - 1) = .error .overflow := by
  have hfault : tapeSide (2 ^ 64 - 1) = .error .overflow := tapeSide_eq_overflow (by decide)
  refine ⟨fun side h => ?_, ?_, hfault⟩
  · have hlimit : side * side < rootLimit := square_lt_rootLimit (h ▸ by decide)
    rw [h] at hlimit
    exact absurd hlimit (by decide)
  · rw [hfault]
    exact nofun

end Frame
end TapeTorus
