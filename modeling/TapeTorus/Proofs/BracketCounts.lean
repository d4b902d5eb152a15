import Mathlib.Algebra.BigOperators.Intervals
import Mathlib.Algebra.BigOperators.Ring.Finset
import TapeTorus.Proofs.StepRange

/-!
# Matching brackets by counts

The partner of a bracket is the first place where as many brackets have been closed
as opened on the way.  Counts over stretches of a tape are differences of one height:
how many more brackets are opened than closed before a position.  A scan keeps the
height at which it has to stop, and finds the first bracket there.
-/

namespace TapeTorus

namespace Bracket

/-! ## Counts -/

/-- How many more of the cells hold the byte `a` than the byte `b`. -/
def excess (a b : UInt8) (cell : Nat → UInt8) (cells : Finset Nat) : Int :=
  (cells.filter fun o => cell o = a).card - (cells.filter fun o => cell o = b).card

/-- How many more brackets are opened than closed before a position. -/
def height (cell : Nat → UInt8) (position : Nat) : Int :=
  excess opening closing cell (Finset.range position)

variable {cell : Nat → UInt8}

private theorem excess_swap (a b : UInt8) (cells : Finset Nat) :
    excess b a cell cells = -excess a b cell cells := by
  simp only [excess]
  omega

private theorem excess_eq_sum (a b : UInt8) (cells : Finset Nat) :
    excess a b cell cells =
      ∑ o ∈ cells, ((if cell o = a then 1 else 0) - (if cell o = b then 1 else 0)) := by
  rw [excess, Finset.natCast_card_filter, Finset.natCast_card_filter, Finset.sum_sub_distrib]

private theorem excess_Ico {first last : Nat} (h : first ≤ last) :
    excess opening closing cell (Finset.Ico first last) = height cell last - height cell first := by
  simp only [height, excess_eq_sum]
  exact Finset.sum_Ico_eq_sub _ h

private theorem excess_Ioc {first last : Nat} (h : first ≤ last) :
    excess closing opening cell (Finset.Ioc first last) =
      height cell (first + 1) - height cell (last + 1) := by
  have hstretch : Finset.Ioc first last = Finset.Ico (first + 1) (last + 1) := by
    ext o
    simp only [Finset.mem_Ioc, Finset.mem_Ico]
    omega
  rw [excess_swap, hstretch, excess_Ico (by omega)]
  omega

private theorem height_succ (cell : Nat → UInt8) (position : Nat) :
    height cell (position + 1) = height cell position +
      ((if cell position = opening then 1 else 0) -
        (if cell position = closing then 1 else 0)) := by
  simp only [height, excess_eq_sum]
  exact Finset.sum_range_succ _ _

theorem height_opening {position : Nat} (h : cell position = opening) :
    height cell (position + 1) = height cell position + 1 := by
  rw [height_succ, if_pos h, h, if_neg opening_ne_closing, sub_zero]

theorem height_closing {position : Nat} (h : cell position = closing) :
    height cell (position + 1) = height cell position - 1 := by
  rw [height_succ, if_pos h, h, if_neg opening_ne_closing.symm]
  rfl

private theorem height_plain {position : Nat} (h : Plain (cell position)) :
    height cell (position + 1) = height cell position := by
  rw [height_succ, if_neg h.1, if_neg h.2, sub_self, add_zero]

/-! ## Scans stop at a height -/

/-- From `start` on, the first bracket that closes at the given height is at `found`. -/
structure ClosesAt (cell : Nat → UInt8) (level : Int) (start found : Nat) : Prop where
  start_le : start ≤ found
  closing_at : cell found = closing
  height_eq : height cell found = level
  height_ge : ∀ m, start ≤ m → m < found → level ≤ height cell (m + 1)

/-- Below `start`, the last bracket that opens from the given height is at `found`. -/
structure OpensAt (cell : Nat → UInt8) (level : Int) (start found : Nat) : Prop where
  found_lt : found < start
  opening_at : cell found = opening
  height_eq : height cell (found + 1) = level
  height_ge : ∀ m, found < m → m < start → level ≤ height cell m

/-- A scan upwards passes a cell where it does not stop, and that does not lead below
the height. -/
theorem closesAt_next {level : Int} {start found : Nat}
    (hpass : ¬(cell start = closing ∧ height cell start = level))
    (hlevel : level ≤ height cell (start + 1)) :
    ClosesAt cell level (start + 1) found ↔ ClosesAt cell level start found := by
  constructor
  · intro h
    refine ⟨by have := h.start_le; omega, h.closing_at, h.height_eq, fun m hstart hfound => ?_⟩
    obtain rfl | hlater := Nat.eq_or_lt_of_le hstart
    · exact hlevel
    · exact h.height_ge m hlater hfound
  · intro h
    refine ⟨?_, h.closing_at, h.height_eq, fun m hstart => h.height_ge m (by omega)⟩
    obtain rfl | hlater := Nat.eq_or_lt_of_le h.start_le
    · exact absurd ⟨h.closing_at, h.height_eq⟩ hpass
    · exact hlater

private theorem opensAt_next {level : Int} {start found : Nat}
    (hpass : ¬(cell start = opening ∧ height cell (start + 1) = level))
    (hlevel : level ≤ height cell start) :
    OpensAt cell level start found ↔ OpensAt cell level (start + 1) found := by
  constructor
  · intro h
    refine ⟨by have := h.found_lt; omega, h.opening_at, h.height_eq, fun m hfound hstart => ?_⟩
    obtain rfl | hlower := Nat.eq_or_lt_of_le (Nat.lt_succ_iff.1 hstart)
    · exact hlevel
    · exact h.height_ge m hfound hlower
  · intro h
    refine ⟨?_, h.opening_at, h.height_eq, fun m hfound hstart => h.height_ge m hfound (by omega)⟩
    obtain rfl | hlower := Nat.eq_or_lt_of_le (Nat.lt_succ_iff.1 h.found_lt)
    · exact absurd ⟨h.opening_at, h.height_eq⟩ hpass
    · exact hlower

private theorem closesAt_here {start found : Nat} (h : cell start = closing) :
    ClosesAt cell (height cell start) start found ↔ start = found := by
  constructor
  · intro hcloses
    obtain heq | hlater := Nat.eq_or_lt_of_le hcloses.start_le
    · exact heq
    · have hbelow := hcloses.height_ge start (Nat.le_refl _) hlater
      rw [height_closing h] at hbelow
      omega
  · rintro rfl
    exact ⟨Nat.le_refl _, h, rfl, fun m _ _ => by omega⟩

private theorem opensAt_here {start found : Nat} (h : cell start = opening) :
    OpensAt cell (height cell (start + 1)) (start + 1) found ↔ start = found := by
  constructor
  · intro hopens
    obtain heq | hlower := Nat.eq_or_lt_of_le (Nat.lt_succ_iff.1 hopens.found_lt)
    · exact heq.symm
    · have hbelow := hopens.height_ge start hlower (Nat.lt_succ_self _)
      rw [height_opening h] at hbelow
      omega
  · rintro rfl
    exact ⟨Nat.lt_succ_self _, h, rfl, fun m _ _ => by omega⟩

/-- The height at which the scan stops stays the same while it goes on: each bracket that
it passes changes the height and the count of open brackets alike. -/
theorem scanUp_eq_some_iff {count position nested found : Nat} :
    scanUp cell count position nested = some found ↔
      found < position + count ∧ ClosesAt cell (height cell position - nested) position found := by
  induction count generalizing position nested with
  | zero =>
    refine iff_of_false (by simp [scanUp]) fun h => ?_
    have hstart := h.2.start_le
    omega
  | succ count ih =>
    have hcount : position + (count + 1) = position + 1 + count := by omega
    rw [hcount]
    by_cases hclosing : cell position = closing
    · cases nested with
      | zero =>
        have hlevel : height cell position - (0 : Nat) = height cell position := by omega
        rw [scanUp_found hclosing, hlevel, closesAt_here hclosing, Option.some.injEq]
        exact ⟨fun h => ⟨by omega, h⟩, fun h => h.2⟩
      | succ nested =>
        have hnext := height_closing hclosing
        have hlevel : height cell position - (nested + 1 : Nat) =
            height cell (position + 1) - nested := by omega
        rw [scanUp_closing hclosing, ih, hlevel]
        exact and_congr_right fun _ =>
          closesAt_next (fun h => by have := h.2; omega) (by omega)
    · by_cases hopening : cell position = opening
      · have hnext := height_opening hopening
        have hlevel : height cell position - nested =
            height cell (position + 1) - (nested + 1 : Nat) := by omega
        rw [scanUp_opening hopening, ih, hlevel]
        exact and_congr_right fun _ => closesAt_next (fun h => hclosing h.1) (by omega)
      · have hnext := height_plain ⟨hopening, hclosing⟩
        rw [scanUp_plain ⟨hopening, hclosing⟩, ih, hnext]
        exact and_congr_right fun _ => closesAt_next (fun h => hclosing h.1) (by omega)

private theorem scanDown_eq_some_iff {position nested found : Nat} :
    scanDown cell position nested = some found ↔
      OpensAt cell (height cell position - nested) position found := by
  induction position generalizing nested with
  | zero => exact iff_of_false (by simp [scanDown]) fun h => absurd h.found_lt (by omega)
  | succ position ih =>
    by_cases hopening : cell position = opening
    · have hnext := height_opening hopening
      cases nested with
      | zero =>
        have hlevel : height cell (position + 1) - (0 : Nat) = height cell (position + 1) := by
          omega
        rw [scanDown_found hopening, hlevel, opensAt_here hopening, Option.some.injEq]
      | succ nested =>
        have hlevel : height cell (position + 1) - (nested + 1 : Nat) =
            height cell position - nested := by omega
        rw [scanDown_opening hopening, ih, hlevel]
        exact opensAt_next (fun h => by have := h.2; omega) (by omega)
    · by_cases hclosing : cell position = closing
      · have hnext := height_closing hclosing
        have hlevel : height cell (position + 1) - nested =
            height cell position - (nested + 1 : Nat) := by omega
        rw [scanDown_closing hclosing, ih, hlevel]
        exact opensAt_next (fun h => hopening h.1) (by omega)
      · have hnext := height_plain ⟨hopening, hclosing⟩
        rw [scanDown_plain ⟨hopening, hclosing⟩, ih, hnext]
        exact opensAt_next (fun h => hopening h.1) (by omega)

/-! ## Partners -/

/-- The bracket at `j` closes the one at `ip`: behind `ip`, one more bracket has been closed
than opened for the first time. -/
structure Closes (cell : Nat → UInt8) (length ip j : Nat) : Prop where
  after : ip < j
  on_tape : j < length
  closing_at : cell j = closing
  excess_eq : excess closing opening cell (Finset.Ioc ip j) = 1
  excess_le : ∀ m, ip < m → m < j → excess closing opening cell (Finset.Ioc ip m) ≤ 0

/-- The bracket at `j` opens the one at `ip`: seen from `ip` backwards, one more bracket has
been opened than closed for the first time. -/
structure Opens (cell : Nat → UInt8) (ip j : Nat) : Prop where
  before : j < ip
  opening_at : cell j = opening
  excess_eq : excess opening closing cell (Finset.Ico j ip) = 1
  excess_le : ∀ m, j < m → m < ip → excess opening closing cell (Finset.Ico m ip) ≤ 0

theorem closes_iff {length ip j : Nat} :
    Closes cell length ip j ↔ j < length ∧ ClosesAt cell (height cell (ip + 1)) (ip + 1) j := by
  constructor
  · intro h
    refine ⟨h.on_tape, h.after, h.closing_at, ?_, fun m hip hj => ?_⟩
    · have hexcess := h.excess_eq
      rw [excess_Ioc h.after.le, height_closing h.closing_at] at hexcess
      omega
    · have hexcess := h.excess_le m hip hj
      rw [excess_Ioc (by omega)] at hexcess
      omega
  · rintro ⟨hlength, h⟩
    have hip : ip < j := h.start_le
    refine ⟨hip, hlength, h.closing_at, ?_, fun m hstart hj => ?_⟩
    · rw [excess_Ioc hip.le, height_closing h.closing_at, h.height_eq]
      omega
    · have hlevel := h.height_ge m hstart hj
      rw [excess_Ioc hstart.le]
      omega

theorem opens_iff {ip j : Nat} : Opens cell ip j ↔ OpensAt cell (height cell ip) ip j := by
  constructor
  · intro h
    refine ⟨h.before, h.opening_at, ?_, fun m hj hip => ?_⟩
    · have hexcess := h.excess_eq
      rw [excess_Ico h.before.le] at hexcess
      rw [height_opening h.opening_at]
      omega
    · have hexcess := h.excess_le m hj hip
      rw [excess_Ico hip.le] at hexcess
      omega
  · intro h
    refine ⟨h.found_lt, h.opening_at, ?_, fun m hj hip => ?_⟩
    · have hheight := h.height_eq
      rw [height_opening h.opening_at] at hheight
      rw [excess_Ico h.found_lt.le]
      omega
    · have hlevel := h.height_ge m hj hip
      rw [excess_Ico hip.le]
      omega

theorem matchForward?_eq_some_iff {length ip j : Nat} :
    matchForward? cell length ip = some j ↔ Closes cell length ip j := by
  rw [matchForward?, scanUp_eq_some_iff, closes_iff, Nat.cast_zero, sub_zero]
  refine and_congr_left fun h => ?_
  have hstart := h.start_le
  omega

theorem matchBackward?_eq_some_iff {ip j : Nat} :
    matchBackward? cell ip = some j ↔ Opens cell ip j := by
  rw [matchBackward?, scanDown_eq_some_iff, opens_iff, Nat.cast_zero, sub_zero]

end Bracket

namespace Store

open TapeTorus.Bracket

/-- The scans always come to an end.  They find the partner of the bracket at `ip` on the
own tape, or nothing if there is none, and they read no other cells than those of the own
tape behind `ip`, or before it: nothing depends on what else a reader would answer. -/
theorem scans_find_partners (s : Store) {program ip : Nat} (hp : program < s.programs)
    (hip : ip < s.tapeLength) :
    (∃ found, s.closingOf program ip = .ok found ∧
      (∀ j, found = some j ↔ Closes (s.cell program) s.tapeLength ip j) ∧
      (found = none ↔ ¬∃ j, Closes (s.cell program) s.tapeLength ip j) ∧
      ∀ read : Nat → Except Fault UInt8,
        (∀ o, ip < o → o < s.tapeLength → read o = s.load program o) →
          seekUp read (s.tapeLength - 1 - ip) ip 1 = .ok found) ∧
    (∃ found, s.openingOf program ip = .ok found ∧
      (∀ j, found = some j ↔ Opens (s.cell program) ip j) ∧
      (found = none ↔ ¬∃ j, Opens (s.cell program) ip j) ∧
      ∀ read : Nat → Except Fault UInt8, (∀ o < ip, read o = s.load program o) →
        seekDown read ip 1 = .ok found) := by
  have hlimit := s.tapeLength_lt
  constructor
  · refine ⟨_, s.closingOf_eq_ok hp hip, fun j => matchForward?_eq_some_iff, ?_, ?_⟩
    · rw [Option.eq_none_iff_forall_ne_some, not_exists]
      exact forall_congr' fun j => not_congr matchForward?_eq_some_iff
    · intro read hread
      have hcount : s.tapeLength - (ip + 1) = s.tapeLength - 1 - ip := by omega
      rw [matchForward?, hcount]
      refine seekUp_eq (fun o hlo hhi => ?_) (by omega) (by omega)
      rw [hread o hlo (by omega), s.load_eq_ok hp (by omega)]
  · refine ⟨_, s.openingOf_eq_ok hp hip, fun j => matchBackward?_eq_some_iff, ?_, ?_⟩
    · rw [Option.eq_none_iff_forall_ne_some, not_exists]
      exact forall_congr' fun j => not_congr matchBackward?_eq_some_iff
    · intro read hread
      refine seekDown_eq (fun o ho => ?_) (by omega)
      rw [hread o ho, s.load_eq_ok hp (by omega)]

/-- Two tapes, of which the second one is `[[]]][`. -/
def nestedLoops : Store :=
  ⟨6, 2, #[0, 0, 93, 0, 0, 0, 91, 91, 93, 93, 93, 91], Nat.succ_pos 5, Nat.two_pos, rfl,
    by decide⟩

/-- The outer loop goes from the first cell to the fourth; the last two brackets have no
partners. -/
theorem scans_find_partners_nested :
    nestedLoops.closingOf 1 0 = .ok (some 3) ∧ Closes (nestedLoops.cell 1) 6 0 3 ∧
      nestedLoops.openingOf 1 3 = .ok (some 0) ∧ Opens (nestedLoops.cell 1) 3 0 ∧
      nestedLoops.closingOf 1 5 = .ok none ∧ (¬∃ j, Closes (nestedLoops.cell 1) 6 5 j) ∧
      nestedLoops.openingOf 1 4 = .ok none ∧ ¬∃ j, Opens (nestedLoops.cell 1) 4 j := by
  obtain ⟨⟨outer, houter, hcloses, -⟩, -⟩ :=
    nestedLoops.scans_find_partners (show 1 < 2 by decide) (show 0 < 6 by decide)
  obtain ⟨-, ⟨start, hstart, hopens, -⟩⟩ :=
    nestedLoops.scans_find_partners (show 1 < 2 by decide) (show 3 < 6 by decide)
  obtain ⟨⟨late, hlate, -, hnone, -⟩, -⟩ :=
    nestedLoops.scans_find_partners (show 1 < 2 by decide) (show 5 < 6 by decide)
  obtain ⟨-, ⟨early, hearly, -, hnone', -⟩⟩ :=
    nestedLoops.scans_find_partners (show 1 < 2 by decide) (show 4 < 6 by decide)
  obtain rfl : some 3 = outer := Except.ok.inj houter
  obtain rfl : some 0 = start := Except.ok.inj hstart
  obtain rfl : none = late := Except.ok.inj hlate
  obtain rfl : none = early := Except.ok.inj hearly
  exact ⟨houter, (hcloses 3).1 rfl, hstart, (hopens 0).1 rfl, hlate, hnone.1 rfl, hearly,
    hnone'.1 rfl⟩

end Store
end TapeTorus
