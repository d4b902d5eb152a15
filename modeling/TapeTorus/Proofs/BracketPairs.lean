import TapeTorus.Proofs.BracketCounts

/-!
# Brackets pair up

The two scans find the same pairs.  A pair is said in one way for both: its brackets
stand at the two ends of a stretch that never goes below the height behind its opening
bracket, and that comes back to it.  Two such stretches lie apart or one in the other.
-/

namespace TapeTorus

namespace Bracket

/-- The brackets at `i` and `j` are the two ends of a loop. -/
structure Pair (cell : Nat → UInt8) (i j : Nat) : Prop where
  lt : i < j
  opening_at : cell i = opening
  closing_at : cell j = closing
  height_eq : height cell j = height cell (i + 1)
  height_ge : ∀ m, i < m → m ≤ j → height cell (i + 1) ≤ height cell m

variable {cell : Nat → UInt8} {i j i' j' : Nat}

private theorem pair_iff_closesAt (h : cell i = opening) :
    Pair cell i j ↔ ClosesAt cell (height cell (i + 1)) (i + 1) j := by
  constructor
  · intro hpair
    exact ⟨hpair.lt, hpair.closing_at, hpair.height_eq,
      fun m hi hj => hpair.height_ge (m + 1) (by omega) hj⟩
  · intro hcloses
    refine ⟨hcloses.start_le, h, hcloses.closing_at, hcloses.height_eq, fun m hi hj => ?_⟩
    obtain rfl | ⟨o, rfl, ho⟩ : m = i + 1 ∨ ∃ o, m = o + 1 ∧ i + 1 ≤ o := by
      obtain heq | hlater := Nat.eq_or_lt_of_le (show i + 1 ≤ m from hi)
      · exact .inl heq.symm
      · exact .inr ⟨m - 1, by omega, by omega⟩
    · exact le_refl _
    · exact hcloses.height_ge o ho hj

private theorem pair_iff_opensAt (h : cell j = closing) :
    Pair cell i j ↔ OpensAt cell (height cell j) j i := by
  constructor
  · intro hpair
    refine ⟨hpair.lt, hpair.opening_at, hpair.height_eq.symm, fun m hi hj => ?_⟩
    rw [hpair.height_eq]
    exact hpair.height_ge m hi hj.le
  · intro hopens
    refine ⟨hopens.found_lt, hopens.opening_at, h, hopens.height_eq.symm, fun m hi hj => ?_⟩
    rw [hopens.height_eq]
    obtain rfl | hlower := Nat.eq_or_lt_of_le hj
    · exact le_refl _
    · exact hopens.height_ge m hi hlower

private theorem pair_iff_matchForward? {length : Nat} (h : cell i = opening) :
    matchForward? cell length i = some j ↔ j < length ∧ Pair cell i j := by
  rw [matchForward?_eq_some_iff, closes_iff, pair_iff_closesAt h]

private theorem pair_iff_matchBackward? (h : cell j = closing) :
    matchBackward? cell j = some i ↔ Pair cell i j := by
  rw [matchBackward?_eq_some_iff, opens_iff, pair_iff_opensAt h]

namespace Pair

private theorem closing_unique (h : Pair cell i j) (h' : Pair cell i j') : j = j' := by
  have hforward := (pair_iff_matchForward? h.opening_at).2 ⟨show j < max j j' + 1 by omega, h⟩
  have hforward' := (pair_iff_matchForward? h.opening_at).2 ⟨show j' < max j j' + 1 by omega, h'⟩
  exact Option.some.inj (hforward.symm.trans hforward')

private theorem opening_unique (h : Pair cell i j) (h' : Pair cell i' j) : i = i' := by
  have hbackward := (pair_iff_matchBackward? h.closing_at).2 h
  have hbackward' := (pair_iff_matchBackward? h.closing_at).2 h'
  exact Option.some.inj (hbackward.symm.trans hbackward')

/-- A pair that opens inside another one closes inside it: behind its opening bracket the
height is too great for the other one's closing bracket. -/
theorem nested (h : Pair cell i j) (h' : Pair cell i' j') (hi : i < i') (hj : i' ≤ j) :
    j' < j := by
  have hinside : height cell (i + 1) + 1 ≤ height cell (i' + 1) := by
    rw [height_opening h'.opening_at]
    have hlevel := h.height_ge i' hi hj
    omega
  by_contra hnot
  obtain heq | hlater := Nat.eq_or_lt_of_le (Nat.le_of_not_lt hnot)
  · have hheight := h.height_eq
    rw [heq, h'.height_eq] at hheight
    omega
  · -- The height behind `j` would be seen inside the inner pair.
    have hne : i' ≠ j := by
      rintro rfl
      exact opening_ne_closing (h'.opening_at.symm.trans h.closing_at)
    have hbehind := height_closing h.closing_at
    have hheight := h.height_eq
    have hlevel := h'.height_ge (j + 1) (by omega) hlater
    omega

/-- Two pairs are the same, lie apart, or one lies strictly in the other. -/
theorem same_or_apart_or_nested (h : Pair cell i j) (h' : Pair cell i' j') :
    (i = i' ∧ j = j') ∨ j < i' ∨ j' < i ∨ (i < i' ∧ j' < j) ∨ (i' < i ∧ j < j') := by
  obtain hlt | rfl | hgt := Nat.lt_trichotomy i i'
  · by_cases hapart : j < i'
    · exact .inr (.inl hapart)
    · exact .inr (.inr (.inr (.inl ⟨hlt, h.nested h' hlt (Nat.le_of_not_lt hapart)⟩)))
  · exact .inl ⟨rfl, h.closing_unique h'⟩
  · by_cases hapart : j' < i
    · exact .inr (.inr (.inl hapart))
    · exact .inr (.inr (.inr (.inr ⟨hgt, h'.nested h hgt (Nat.le_of_not_lt hapart)⟩)))

end Pair
end Bracket

namespace Store

open TapeTorus.Bracket

/-- The cell at `i` holds an opening bracket, and the scan from there finds `j`. -/
def MatchedForward (s : Store) (program i j : Nat) : Prop :=
  s.load program i = .ok opening ∧ s.closingOf program i = .ok (some j)

/-- The cell at `j` holds a closing bracket, and the scan from there finds `i`. -/
def MatchedBackward (s : Store) (program i j : Nat) : Prop :=
  s.load program j = .ok closing ∧ s.openingOf program j = .ok (some i)

variable {s : Store} {program i j : Nat}

private theorem matchedForward_iff : s.MatchedForward program i j ↔
    program < s.programs ∧ j < s.tapeLength ∧ Pair (s.cell program) i j := by
  rw [MatchedForward, load_eq_ok_iff]
  constructor
  · rintro ⟨⟨⟨hp, hi⟩, hopening⟩, hscan⟩
    rw [s.closingOf_eq_ok hp hi, Except.ok.injEq, pair_iff_matchForward? hopening] at hscan
    exact ⟨hp, hscan⟩
  · rintro ⟨hp, hj, hpair⟩
    have hi : i < s.tapeLength := Nat.lt_trans hpair.lt hj
    refine ⟨⟨⟨hp, hi⟩, hpair.opening_at⟩, ?_⟩
    rw [s.closingOf_eq_ok hp hi, Except.ok.injEq, pair_iff_matchForward? hpair.opening_at]
    exact ⟨hj, hpair⟩

private theorem matchedBackward_iff : s.MatchedBackward program i j ↔
    program < s.programs ∧ j < s.tapeLength ∧ Pair (s.cell program) i j := by
  rw [MatchedBackward, load_eq_ok_iff]
  constructor
  · rintro ⟨⟨⟨hp, hj⟩, hclosing⟩, hscan⟩
    rw [s.openingOf_eq_ok hp hj, Except.ok.injEq, pair_iff_matchBackward? hclosing] at hscan
    exact ⟨hp, hj, hscan⟩
  · rintro ⟨hp, hj, hpair⟩
    refine ⟨⟨⟨hp, hj⟩, hpair.closing_at⟩, ?_⟩
    rw [s.openingOf_eq_ok hp hj, Except.ok.injEq, pair_iff_matchBackward? hpair.closing_at]
    exact hpair

/-- Both scans find the same pairs.  No two opening brackets have the same closing one, and
of two different pairs either each lies behind the other one's end, or one lies strictly
in the other. -/
theorem matched_inverse_and_laminar (s : Store) (program : Nat) :
    (∀ i j, s.MatchedForward program i j ↔ s.MatchedBackward program i j) ∧
    (∀ i i' j, s.MatchedForward program i j → s.MatchedForward program i' j → i = i') ∧
    ∀ i j i' j', s.MatchedForward program i j → s.MatchedForward program i' j' →
      (i = i' ∧ j = j') ∨ j < i' ∨ j' < i ∨ (i < i' ∧ j' < j) ∨ (i' < i ∧ j < j') := by
  refine ⟨fun i j => matchedForward_iff.trans matchedBackward_iff.symm, ?_, ?_⟩
  · intro i i' j h h'
    obtain ⟨-, -, hpair⟩ := matchedForward_iff.1 h
    obtain ⟨-, -, hpair'⟩ := matchedForward_iff.1 h'
    exact hpair.opening_unique hpair'
  · intro i j i' j' h h'
    obtain ⟨-, -, hpair⟩ := matchedForward_iff.1 h
    obtain ⟨-, -, hpair'⟩ := matchedForward_iff.1 h'
    exact hpair.same_or_apart_or_nested hpair'

/-- In `[[]]][` the two loops are found from both ends, and the inner one lies in the outer. -/
theorem matched_inverse_and_laminar_nested :
    nestedLoops.MatchedForward 1 0 3 ∧ nestedLoops.MatchedBackward 1 0 3 ∧
      nestedLoops.MatchedForward 1 1 2 ∧ nestedLoops.MatchedBackward 1 1 2 ∧
      ((0 = 1 ∧ 3 = 2) ∨ 3 < 1 ∨ 2 < 0 ∨ (0 < 1 ∧ 2 < 3) ∨ (1 < 0 ∧ 3 < 2)) := by
  obtain ⟨hinverse, -, hlaminar⟩ := nestedLoops.matched_inverse_and_laminar 1
  have houter : nestedLoops.MatchedForward 1 0 3 := ⟨rfl, rfl⟩
  have hinner : nestedLoops.MatchedForward 1 1 2 := ⟨rfl, rfl⟩
  exact ⟨houter, (hinverse 0 3).1 houter, hinner, (hinverse 1 2).1 hinner,
    hlaminar 0 3 1 2 houter hinner⟩

end Store
end TapeTorus
