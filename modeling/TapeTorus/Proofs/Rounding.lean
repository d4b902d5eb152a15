import Mathlib.Algebra.Order.Field.Power
import Mathlib.Algebra.Order.Ring.Abs
import Mathlib.Analysis.Real.Sqrt
import TapeTorus.Frame

/-!
# Rounding to nearest

A number that is rounded to 53 bits is as near to the exact one as any multiple of its unit,
and even if two of them are equally near.  So the error is at most `2 ^ -53` of the exact
number, and a number with an even significand is reached from the midpoint below it on.
Conversion, root and rounding to a natural number are all described by the exact numbers
that they stand for.
-/

namespace TapeTorus

namespace Binary64

/-- The number as a real one. -/
noncomputable def value (x : Binary64) : ℝ := x.significand * 2 ^ x.exponent

theorem value_nonneg (x : Binary64) : 0 ≤ x.value := by
  unfold value
  positivity

/-- The number `v` lies between the multiples `q` and `q + 1` of `2 ^ exponent`.  It is the
former itself unless `inexact`, in which case `q` has more than 53 bits. -/
structure Cut (q : Nat) (inexact : Bool) (exponent : Int) (v : ℝ) : Prop where
  lt : v < (q + 1) * 2 ^ exponent
  eq_of_exact : inexact = false → v = q * 2 ^ exponent
  lt_of_inexact : inexact = true → q * 2 ^ exponent < v
  long_of_inexact : inexact = true → 2 ^ 53 ≤ q

/-- The number is a nearest multiple of its unit, and the even one of two. -/
structure Nearest (x : Binary64) (v : ℝ) : Prop where
  significand_ge : 2 ^ 52 ≤ x.significand
  le : 2 ^ 52 * 2 ^ x.exponent ≤ v
  abs_sub_le : |x.value - v| ≤ 2 ^ x.exponent / 2
  even_of_tie : |x.value - v| = 2 ^ x.exponent / 2 → Even x.significand

/-- The number is `v`, rounded to 53 bits. -/
structure RoundedFrom (x : Binary64) (v : ℝ) : Prop where
  significand_le : x.significand ≤ 2 ^ 53
  eq_or_nearest : x.value = v ∨ x.Nearest v

theorem Cut.le {q : Nat} {inexact : Bool} {exponent : Int} {v : ℝ}
    (h : Cut q inexact exponent v) : q * 2 ^ exponent ≤ v := by
  cases inexact with
  | false => exact (h.eq_of_exact rfl).ge
  | true => exact (h.lt_of_inexact rfl).le

/-! ## The nearest multiple -/

/-- Of the two multiples of `2 * half` around `t` the nearest one is taken, judging by what is
left of `t` below the point and by whether anything is left behind it. -/
theorem nearest_multiple {kept half rest : Nat} {inexact : Bool} {t : ℝ}
    (hrest : rest < 2 * half) (hle : ((2 * half * kept + rest : Nat) : ℝ) ≤ t)
    (hlt : t < (2 * half * kept + rest : Nat) + 1)
    (hexact : inexact = false → t = (2 * half * kept + rest : Nat))
    (hinexact : inexact = true → ((2 * half * kept + rest : Nat) : ℝ) < t) (n : Nat)
    (hn : n = if 2 * rest > 2 * half ∨ (2 * rest = 2 * half ∧ (inexact ∨ kept % 2 = 1)) then
      kept + 1 else kept) :
    |n * (2 * half) - t| ≤ half ∧ (|n * (2 * half) - t| = half → Even n) := by
  push_cast at hle hlt hexact hinexact
  have hrest' : (rest : ℝ) + 1 ≤ 2 * half := by exact_mod_cast hrest
  split at hn
  · rename_i hup
    subst hn
    have hhalf : (half : ℝ) ≤ rest := by
      have hnat : half ≤ rest := by omega
      exact_mod_cast hnat
    have habs : |((kept + 1 : Nat) : ℝ) * (2 * half) - t| = (kept + 1) * (2 * half) - t := by
      push_cast
      exact abs_of_nonneg (by linarith)
    rw [habs]
    refine ⟨by linarith, fun htie => ?_⟩
    have hmiddle : (rest : ℝ) = half := by linarith
    have heq : rest = half := by exact_mod_cast hmiddle
    have hsharp : inexact = false := by
      cases inexact with
      | false => rfl
      | true =>
        have hlate := hinexact rfl
        linarith
    have hodd : kept % 2 = 1 := by
      rcases hup with hmore | ⟨-, hcause⟩
      · omega
      · simpa [hsharp] using hcause
    exact Nat.even_iff.2 (by omega)
  · rename_i hdown
    subst hn
    have hhalf : rest ≤ half := by omega
    have habs : |(n : ℝ) * (2 * half) - t| = t - n * (2 * half) := by
      rw [abs_sub_comm]
      have hnonneg : (0 : ℝ) ≤ rest := Nat.cast_nonneg rest
      exact abs_of_nonneg (by linarith)
    rw [habs]
    by_cases heq : rest = half
    · have hsharp : inexact = false := by
        cases inexact with
        | false => rfl
        | true => exact absurd (.inr ⟨by omega, .inl rfl⟩) hdown
      have hsame := hexact hsharp
      have heven : n % 2 = 0 := by omega
      subst heq
      exact ⟨by linarith, fun _ => Nat.even_iff.2 heven⟩
    · have hbelow : (rest : ℝ) + 1 ≤ half := by
        have hnat : rest + 1 ≤ half := by omega
        exact_mod_cast hnat
      exact ⟨by linarith, fun htie => absurd htie (by linarith)⟩

private theorem two_zpow_pos (e : Int) : (0 : ℝ) < 2 ^ e := by positivity

private theorem two_zpow_add (e : Int) (shift : Nat) :
    (2 : ℝ) ^ (e + shift) = 2 ^ e * 2 ^ shift := by
  rw [zpow_add₀ (by norm_num), zpow_natCast]

private theorem round_of_short {q : Nat} (hq : q < 2 ^ 53) (inexact : Bool) (exponent : Int) :
    round q inexact exponent = ⟨q, exponent⟩ := if_pos hq

/-- What is more than 53 bits long is divided by a unit that leaves 53 bits of it. -/
theorem round_of_long {q : Nat} (hq : 2 ^ 53 ≤ q) (inexact : Bool) (exponent : Int) :
    ∃ k kept rest n, 2 * 2 ^ k * kept + rest = q ∧ rest < 2 * 2 ^ k ∧
      2 ^ 52 ≤ kept ∧ kept < 2 ^ 53 ∧
      (n = if 2 * rest > 2 * 2 ^ k ∨ (2 * rest = 2 * 2 ^ k ∧ (inexact ∨ kept % 2 = 1)) then
        kept + 1 else kept) ∧
      round q inexact exponent = ⟨n, exponent + (k + 1 : Nat)⟩ := by
  have hne : q ≠ 0 := by omega
  have hlog : 53 ≤ q.log2 := (Nat.le_log2 hne).2 hq
  obtain ⟨k, hk⟩ : ∃ k, q.log2 = 53 + k := ⟨q.log2 - 53, by omega⟩
  have hshift : q.log2 - 52 = k + 1 := by omega
  have hpow : Nat.pow 2 (k + 1) = 2 * 2 ^ k := by rw [Nat.pow_eq, Nat.pow_succ, Nat.mul_comm]
  have hunit : 0 < 2 * 2 ^ k := by positivity
  refine ⟨k, q / (2 * 2 ^ k), q % (2 * 2 ^ k), _, Nat.div_add_mod q _, Nat.mod_lt q hunit,
    (Nat.le_div_iff_mul_le hunit).2 ?_, (Nat.div_lt_iff_lt_mul hunit).2 ?_, rfl, ?_⟩
  · calc 2 ^ 52 * (2 * 2 ^ k) = 2 ^ q.log2 := by rw [hk]; ring
      _ ≤ q := Nat.log2_self_le hne
  · calc q < 2 ^ (q.log2 + 1) := Nat.lt_log2_self
      _ = 2 ^ 53 * (2 * 2 ^ k) := by rw [hk]; ring
  · have hlong : ¬q < Nat.pow 2 53 := Nat.not_lt.2 hq
    rw [round, if_neg hlong, hshift]
    dsimp only
    rw [hpow, ← apply_ite (Binary64.mk · _)]

private theorem nearest_of_scaled {n k : Nat} {exponent : Int} {t : ℝ} (hlow : 2 ^ 52 ≤ n)
    (ht : 2 ^ 52 * (2 * 2 ^ k) ≤ t) (habs : |n * (2 * 2 ^ k) - t| ≤ 2 ^ k)
    (htie : |n * (2 * 2 ^ k) - t| = 2 ^ k → Even n) :
    Nearest ⟨n, exponent + (k + 1 : Nat)⟩ (t * 2 ^ exponent) := by
  have hpos := two_zpow_pos exponent
  have hunit : (2 : ℝ) ^ (exponent + (k + 1 : Nat)) = 2 * 2 ^ k * 2 ^ exponent := by
    rw [two_zpow_add]
    ring
  have hmiddle : (2 : ℝ) ^ (exponent + (k + 1 : Nat)) / 2 = 2 ^ k * 2 ^ exponent := by
    rw [hunit]
    ring
  have hdifference : |value ⟨n, exponent + (k + 1 : Nat)⟩ - t * 2 ^ exponent| =
      |n * (2 * 2 ^ k) - t| * 2 ^ exponent := by
    have hfactor : value ⟨n, exponent + (k + 1 : Nat)⟩ - t * 2 ^ exponent =
        (n * (2 * 2 ^ k) - t) * 2 ^ exponent := by
      rw [value, hunit]
      ring
    rw [hfactor, abs_mul, abs_of_pos hpos]
  constructor
  · exact hlow
  · rw [hunit, ← mul_assoc]
    exact mul_le_mul_of_nonneg_right ht hpos.le
  · rw [hdifference, hmiddle]
    exact mul_le_mul_of_nonneg_right habs hpos.le
  · rw [hdifference, hmiddle]
    intro h
    exact htie (mul_right_cancel₀ hpos.ne' h)

private theorem round_roundedFrom {q : Nat} {inexact : Bool} {exponent : Int} {v : ℝ}
    (h : Cut q inexact exponent v) : (round q inexact exponent).RoundedFrom v := by
  by_cases hsmall : q < 2 ^ 53
  · have hsharp : inexact = false := by
      cases inexact with
      | false => rfl
      | true => exact absurd (h.long_of_inexact rfl) (Nat.not_le_of_lt hsmall)
    rw [round_of_short hsmall]
    exact ⟨hsmall.le, .inl (h.eq_of_exact hsharp).symm⟩
  · obtain ⟨k, kept, rest, n, rfl, hrest, hlow, hhigh, hn, hround⟩ :=
      round_of_long (Nat.le_of_not_lt hsmall) inexact exponent
    have hpos := two_zpow_pos exponent
    obtain ⟨t, rfl⟩ : ∃ t : ℝ, v = t * 2 ^ exponent := ⟨v / 2 ^ exponent, by field_simp⟩
    have hle : ((2 * 2 ^ k * kept + rest : Nat) : ℝ) ≤ t := le_of_mul_le_mul_right h.le hpos
    obtain ⟨habs, htie⟩ := nearest_multiple hrest hle (lt_of_mul_lt_mul_right h.lt hpos.le)
      (fun hi => mul_right_cancel₀ hpos.ne' (h.eq_of_exact hi))
      (fun hi => lt_of_mul_lt_mul_right (h.lt_of_inexact hi) hpos.le) n hn
    have hkept : kept ≤ n ∧ n ≤ kept + 1 := by
      rw [hn]
      split <;> omega
    have hfull : 2 ^ 52 * (2 * 2 ^ k) ≤ t := by
      have hnat : 2 ^ 52 * (2 * 2 ^ k) ≤ 2 * 2 ^ k * kept + rest := by
        rw [Nat.mul_comm]
        exact Nat.le_add_right_of_le (Nat.mul_le_mul_left _ hlow)
      exact le_trans (by exact_mod_cast hnat) hle
    push_cast at habs htie
    rw [hround]
    exact ⟨by dsimp only; omega, .inr (nearest_of_scaled (by omega) hfull habs htie)⟩

/-! ## What rounding keeps -/

private theorem two_zpow_lt {e j : Int} (h : e < j) : 2 * (2 : ℝ) ^ e ≤ 2 ^ j := by
  calc 2 * (2 : ℝ) ^ e = 2 ^ (e + 1) := by rw [zpow_add_one₀ (by norm_num), mul_comm]
    _ ≤ 2 ^ j := zpow_le_zpow_right₀ (by norm_num) h

private theorem value_le {x : Binary64} (h : x.significand ≤ 2 ^ 53) :
    x.value ≤ 2 ^ 53 * 2 ^ x.exponent := by
  have hcast : (x.significand : ℝ) ≤ 2 ^ 53 := by exact_mod_cast h
  exact mul_le_mul_of_nonneg_right hcast (two_zpow_pos _).le

private theorem Nearest.le_value {x : Binary64} {v : ℝ} (h : x.Nearest v) :
    2 ^ 52 * 2 ^ x.exponent ≤ x.value := by
  have hcast : (2 ^ 52 : ℝ) ≤ x.significand := by exact_mod_cast h.significand_ge
  exact mul_le_mul_of_nonneg_right hcast (two_zpow_pos _).le

/-- Between two multiples of `2 ^ j` that have 53 bits there is no other number of 53 bits. -/
theorem next_le_value {x : Binary64} {j : Int} {m : Nat} (hx : x.significand ≤ 2 ^ 53)
    (hm : 2 ^ 52 < m) (h : (m - 1) * 2 ^ j < x.value) : m * 2 ^ j ≤ x.value := by
  have hj := two_zpow_pos j
  have hlow : (2 ^ 52 : ℝ) + 1 ≤ m := by exact_mod_cast hm
  rcases lt_or_ge x.exponent j with hlt | hge
  · have hle := value_le hx
    have hunit := two_zpow_lt hlt
    nlinarith
  · obtain ⟨d, hd⟩ := Int.le.dest hge
    have hvalue : x.value = (x.significand * 2 ^ d : Nat) * 2 ^ j := by
      rw [value, ← hd, two_zpow_add]
      push_cast
      ring
    rw [hvalue] at h ⊢
    have hmore : (m : ℝ) < (x.significand * 2 ^ d : Nat) + 1 := by
      linarith [lt_of_mul_lt_mul_right h hj.le]
    have hnat : m ≤ x.significand * 2 ^ d := Nat.lt_succ_iff.1 (by exact_mod_cast hmore)
    exact mul_le_mul_of_nonneg_right (by exact_mod_cast hnat) hj.le

namespace RoundedFrom

variable {x : Binary64} {v : ℝ}

/-- Rounding changes a number by at most `2 ^ -53` of it. -/
theorem abs_sub_le (h : x.RoundedFrom v) : |x.value - v| ≤ v / 2 ^ 53 := by
  rcases h.eq_or_nearest with heq | hnearest
  · rw [heq, sub_self, abs_zero, ← heq]
    have hnonneg := x.value_nonneg
    positivity
  · have habs := hnearest.abs_sub_le
    have hle := hnearest.le
    linarith

/-- A number with an even significand `m` is reached from half a unit below it on. -/
theorem le_value_iff (h : x.RoundedFrom v) {m : Nat} (heven : Even m) (hlow : 2 ^ 52 < m)
    (hhigh : m ≤ 2 ^ 53) (j : Int) : m * 2 ^ j ≤ x.value ↔ (m - 1 / 2) * 2 ^ j ≤ v := by
  have hj := two_zpow_pos j
  have hlow' : (2 ^ 52 : ℝ) + 1 ≤ m := by exact_mod_cast hlow
  have hhigh' : (m : ℝ) ≤ 2 ^ 53 := by exact_mod_cast hhigh
  rcases h.eq_or_nearest with heq | hnearest
  · rw [← heq]
    constructor
    · intro hle
      linarith
    · intro hle
      exact next_le_value h.significand_le hlow (by linarith)
  · obtain ⟨hbelow, habove⟩ := abs_le.1 hnearest.abs_sub_le
    have hvalue := hnearest.le_value
    have hv := hnearest.le
    rcases lt_trichotomy x.exponent j with hlt | rfl | hgt
    · -- all numbers of a smaller unit lie below, and so does what is rounded to them
      have hle := value_le h.significand_le
      have hunit := two_zpow_lt hlt
      constructor
      · intro
        nlinarith
      · intro
        nlinarith
    · constructor
      · intro hle
        linarith
      · intro hle
        by_contra hless
        have hsignificand : x.significand < m := by
          have hcast := lt_of_mul_lt_mul_right (not_le.1 hless) hj.le
          exact_mod_cast hcast
        have hcast : (x.significand : ℝ) + 1 ≤ m := by exact_mod_cast hsignificand
        have hstep : (x.significand + 1) * (2 : ℝ) ^ x.exponent ≤ m * 2 ^ x.exponent :=
          mul_le_mul_of_nonneg_right hcast hj.le
        have hdef : x.value = x.significand * 2 ^ x.exponent := rfl
        have htie : |x.value - v| = 2 ^ x.exponent / 2 := by
          rw [abs_sub_comm, abs_of_nonneg (by linarith)]
          linarith
        have hodd : x.significand + 1 = m := by
          have hsame : (x.significand + 1) * (2 : ℝ) ^ x.exponent = m * 2 ^ x.exponent := by
            linarith
          exact_mod_cast mul_right_cancel₀ hj.ne' hsame
        have hparity := hnearest.even_of_tie htie
        rw [← hodd, Nat.even_add_one] at heven
        exact heven hparity
    · -- all numbers of a greater unit lie above
      have hunit := two_zpow_lt hgt
      have hmore : m * (2 : ℝ) ^ j ≤ 2 ^ 52 * 2 ^ x.exponent := by
        calc m * (2 : ℝ) ^ j ≤ 2 ^ 53 * 2 ^ j := mul_le_mul_of_nonneg_right hhigh' hj.le
          _ = 2 ^ 52 * (2 * 2 ^ j) := by ring
          _ ≤ 2 ^ 52 * 2 ^ x.exponent := mul_le_mul_of_nonneg_left hunit (by positivity)
      constructor
      · intro
        linarith
      · intro
        linarith

end RoundedFrom

/-! ## Conversions, roots and quotients -/

theorem ofNat_roundedFrom (n : Nat) : (ofNat n).RoundedFrom n := by
  apply round_roundedFrom
  constructor
  · simp
  · simp
  · intro h
    cases h
  · intro h
    cases h

private theorem doubled_bounds {n r : Nat} (hr : Nat.sqrt (n / 4) = r) :
    2 * r * (2 * r) ≤ n ∧ n < (2 * r + 2) * (2 * r + 2) := by
  obtain ⟨hlow, hhigh⟩ := Nat.eq_sqrt.1 hr.symm
  have hdouble : 2 * r * (2 * r) = 4 * (r * r) := by ring
  have hnext : (2 * r + 2) * (2 * r + 2) = 4 * ((r + 1) * (r + 1)) := by ring
  omega

private theorem floorRoot_eq_sqrt (n : Nat) : floorRoot n = Nat.sqrt n := by
  induction n using floorRoot.induct with
  | case1 =>
    rw [floorRoot, if_pos rfl, Nat.sqrt_zero]
  | case2 n hn root hodd ih =>
    have hbounds := doubled_bounds ih.symm
    rw [floorRoot, if_neg hn]
    dsimp only
    rw [if_pos hodd]
    exact Nat.eq_sqrt.2 ⟨hodd, hbounds.2⟩
  | case3 n hn root heven ih =>
    have hbounds := doubled_bounds ih.symm
    rw [floorRoot, if_neg hn]
    dsimp only
    rw [if_neg heven]
    exact Nat.eq_sqrt.2 ⟨hbounds.1, Nat.lt_of_not_le heven⟩

private theorem sqrt_value {x : Binary64} {shift : Nat} {e : Int} (h : x.exponent = shift + 2 * e) :
    √x.value = √((x.significand * 2 ^ shift : Nat) : ℝ) * 2 ^ e := by
  have hvalue : x.value = ((x.significand * 2 ^ shift : Nat) : ℝ) * (2 ^ e) ^ 2 := by
    rw [value, h, zpow_add₀ (by norm_num), zpow_natCast, zpow_mul', zpow_ofNat]
    push_cast
    ring
  rw [hvalue, Real.sqrt_mul (Nat.cast_nonneg _), Real.sqrt_sq (two_zpow_pos e).le]

private theorem cut_sqrt {n : Nat} (hn : n = 0 ∨ 2 ^ 110 ≤ n) (e : Int) :
    Cut n.sqrt (n.sqrt * n.sqrt ≠ n) e (√n * 2 ^ e) := by
  have hpos := two_zpow_pos e
  constructor
  · exact mul_lt_mul_of_pos_right Real.real_sqrt_lt_nat_sqrt_succ hpos
  · intro hexact
    have hsquare : n.sqrt * n.sqrt = n := by simpa using hexact
    have hroot : √(n : ℝ) = n.sqrt := by
      conv_lhs => rw [← hsquare]
      rw [Nat.cast_mul, Real.sqrt_mul_self (Nat.cast_nonneg _)]
    rw [hroot]
  · intro hinexact
    have hne : n.sqrt * n.sqrt ≠ n := by simpa using hinexact
    have hless : n.sqrt * n.sqrt < n := lt_of_le_of_ne n.sqrt_le hne
    have hroot : (n.sqrt : ℝ) < √n := by
      rw [Real.lt_sqrt (Nat.cast_nonneg _), sq]
      exact_mod_cast hless
    exact mul_lt_mul_of_pos_right hroot hpos
  · intro hinexact
    have hne : n.sqrt * n.sqrt ≠ n := by simpa using hinexact
    have hlarge : 2 ^ 110 ≤ n := by
      apply hn.resolve_left
      rintro rfl
      exact hne rfl
    exact Nat.le_sqrt.2 (le_trans (by norm_num) hlarge)

theorem sqrt_roundedFrom (x : Binary64) : x.sqrt.RoundedFrom √x.value := by
  have hparity : x.exponent = (110 + (x.exponent % 2).toNat : Nat) +
      2 * ((x.exponent - (110 + (x.exponent % 2).toNat : Nat)) / 2) := by omega
  have hscaled : x.significand * Nat.pow 2 (110 + (x.exponent % 2).toNat) = 0 ∨
      2 ^ 110 ≤ x.significand * Nat.pow 2 (110 + (x.exponent % 2).toNat) := by
    rcases Nat.eq_zero_or_pos x.significand with hzero | hpos
    · exact .inl (by rw [hzero, Nat.zero_mul])
    · refine .inr (le_trans ?_ (Nat.le_mul_of_pos_left _ hpos))
      exact Nat.pow_le_pow_right (by norm_num) (Nat.le_add_right _ _)
  have hcut := cut_sqrt hscaled ((x.exponent - (110 + (x.exponent % 2).toNat : Nat)) / 2)
  rw [sqrt_value hparity]
  unfold sqrt
  simp only [floorRoot_eq_sqrt]
  exact round_roundedFrom hcut

/-- A number is rounded to `m` or more if it is not less than a half below `m`. -/
theorem le_roundToNat_iff {x : Binary64} {m : Nat} :
    m ≤ x.roundToNat ↔ (m : ℝ) - 1 / 2 ≤ x.value := by
  unfold roundToNat
  by_cases hexponent : 0 ≤ x.exponent
  · obtain ⟨d, hd⟩ := Int.eq_ofNat_of_zero_le hexponent
    have hvalue : x.value = (x.significand * 2 ^ d : Nat) := by
      rw [value, hd, zpow_natCast]
      push_cast
      rfl
    rw [if_pos hexponent, hvalue, hd, Int.toNat_natCast, Nat.pow_eq]
    generalize x.significand * 2 ^ d = n
    constructor
    · intro hle
      have hcast : (m : ℝ) ≤ n := by exact_mod_cast hle
      linarith
    · intro hle
      have hless : (m : ℝ) < n + 1 := by linarith
      exact Nat.lt_succ_iff.1 (by exact_mod_cast hless)
  · obtain ⟨d, hd⟩ : ∃ d : Nat, x.exponent = -d := ⟨(-x.exponent).toNat, by omega⟩
    have hpos : (0 : ℝ) < 2 ^ d := by positivity
    have hvalue : x.value = x.significand / 2 ^ d := by
      rw [value, hd, zpow_neg, zpow_natCast, div_eq_mul_inv]
    rw [if_neg hexponent, hvalue, hd, Int.neg_neg, Int.toNat_natCast, Nat.pow_eq]
    dsimp only
    rw [Nat.le_div_iff_mul_le (by positivity), le_div_iff₀ hpos]
    constructor
    · intro hle
      have hcast : (m : ℝ) * (2 * 2 ^ d) ≤ 2 * x.significand + 2 ^ d := by exact_mod_cast hle
      linarith
    · intro hle
      have hcast : (m : ℝ) * (2 * 2 ^ d) ≤ 2 * x.significand + 2 ^ d := by linarith
      exact_mod_cast hcast

/-- What differs from a natural number by less than a half is rounded to it. -/
theorem roundToNat_eq {x : Binary64} {m : Nat} (h : |x.value - m| < 1 / 2) : x.roundToNat = m := by
  obtain ⟨hbelow, habove⟩ := abs_lt.1 h
  apply Nat.le_antisymm
  · apply Nat.le_of_not_lt
    intro hlt
    have hle := le_roundToNat_iff.1 (Nat.succ_le_of_lt hlt)
    push_cast at hle
    linarith
  · exact le_roundToNat_iff.2 (by linarith)

end Binary64
end TapeTorus
