import Mathlib.Data.Nat.ModEq
import Mathlib.Logic.Equiv.Defs
import TapeTorus.Proofs.Shift

/-!
# Paths over the torus

A path is a list of directions.  It takes every program as far as its steps add up to, round
the torus and in whatever order they stand (`Torus.follow_eq_shift`).  Opposite steps cancel
out, a direction comes back after as many steps as the side has programs and not before, and
every program is reached from every other one by steps to the east and to the south in
exactly one way (`Torus.directions_form_group`).
-/

namespace TapeTorus

namespace Torus

/-! ## Shifts that go equally far -/

private theorem shift_zero (t : Torus) {i : Nat} (hi : i < t.size) : t.shift 0 0 i = i := by
  apply t.eq_of_coords
  · rw [shift_mod, Nat.add_zero, Nat.mod_mod]
  · rw [shift_div, Nat.add_zero, Nat.mod_eq_of_lt (t.row_lt hi)]

private theorem shift_eq_iff (t : Torus) {dx dy ex ey i : Nat} :
    t.shift dx dy i = t.shift ex ey i ↔ dx ≡ ex [MOD t.width] ∧ dy ≡ ey [MOD t.height] := by
  constructor
  · intro h
    have hcolumn := congrArg (· % t.width) h
    have hrow := congrArg (· / t.width) h
    simp only [shift_mod, shift_div] at hcolumn hrow
    exact ⟨Nat.ModEq.add_left_cancel' _ hcolumn, Nat.ModEq.add_left_cancel' _ hrow⟩
  · rintro ⟨hcolumn, hrow⟩
    apply t.eq_of_coords
    · rw [shift_mod, shift_mod]
      exact hcolumn.add_left _
    · rw [shift_div, shift_div]
      exact hrow.add_left _

private theorem shift_eq_self_iff (t : Torus) {dx dy i : Nat} (hi : i < t.size) :
    t.shift dx dy i = i ↔ t.width ∣ dx ∧ t.height ∣ dy :=
  calc t.shift dx dy i = i ↔ t.shift dx dy i = t.shift 0 0 i := by rw [t.shift_zero hi]
    _ ↔ t.width ∣ dx ∧ t.height ∣ dy := by
        rw [shift_eq_iff, Nat.modEq_zero_iff_dvd, Nat.modEq_zero_iff_dvd]

/-- How far one has to go from `a` to `b` on a ring of `n` places. -/
def distance (a b n : Nat) : Nat := (b + (n - a)) % n

private theorem add_distance {a b n : Nat} (ha : a < n) (hb : b < n) :
    (a + distance a b n) % n = b := by
  have hround : a + (b + (n - a)) = b + n := by omega
  rw [distance, Nat.add_mod_mod, hround, Nat.add_mod_right, Nat.mod_eq_of_lt hb]

private theorem exists_shift (t : Torus) {i j : Nat} (hi : i < t.size) (hj : j < t.size) :
    ∃ dx < t.width, ∃ dy < t.height, t.shift dx dy i = j := by
  have hcolumn (k : Nat) : k % t.width < t.width := Nat.mod_lt k t.width_pos
  refine ⟨distance (i % t.width) (j % t.width) t.width, Nat.mod_lt _ t.width_pos,
    distance (i / t.width) (j / t.width) t.height, Nat.mod_lt _ t.height_pos, ?_⟩
  apply t.eq_of_coords
  · rw [shift_mod, add_distance (hcolumn i) (hcolumn j)]
  · rw [shift_div, add_distance (t.row_lt hi) (t.row_lt hj)]

/-! ## Steps to a neighbour -/

private theorem dvd_opposite (t : Torus) (d : Direction) :
    t.width ∣ t.columns d + t.columns d.opposite ∧ t.height ∣ t.rows d + t.rows d.opposite := by
  have hwidth := t.width_pos
  have hheight := t.height_pos
  cases d <;> simp [columns, rows, Direction.opposite, Nat.sub_add_cancel, Nat.succ_le_of_lt,
    hwidth, hheight]

theorem neighbor_lt (t : Torus) {i j : Nat} (hi : i < t.size) {d : Direction}
    (h : t.neighbor i d = .ok j) : j < t.size := by
  rw [t.neighbor_eq_shift hi, Except.ok.injEq] at h
  exact h ▸ t.shift_lt (t.columns d) (t.rows d) i

/-- The neighbour of a program has it as a neighbour, too, on the opposite side. -/
theorem neighbor_opposite (t : Torus) {i j : Nat} (hi : i < t.size) {d : Direction}
    (h : t.neighbor i d = .ok j) : t.neighbor j d.opposite = .ok i := by
  rw [t.neighbor_eq_shift hi, Except.ok.injEq] at h
  subst h
  rw [t.neighbor_eq_shift (t.shift_lt _ _ i), shift_shift, Except.ok.injEq,
    t.shift_eq_self_iff hi]
  exact t.dvd_opposite d

/-- A direction takes different programs to different programs, and reaches them all. -/
def move (t : Torus) (d : Direction) : Equiv.Perm (Fin t.size) where
  toFun i := ⟨t.shift (t.columns d) (t.rows d) i, t.shift_lt _ _ i⟩
  invFun i := ⟨t.unshift (t.columns d) (t.rows d) i, t.shift_lt _ _ i⟩
  left_inv i := Fin.ext (t.unshift_shift _ _ i.isLt)
  right_inv i := Fin.ext (t.shift_unshift _ _ i.isLt)

private theorem neighbor_eq_move (t : Torus) (d : Direction) (i : Fin t.size) :
    t.neighbor i d = .ok (t.move d i) := t.neighbor_eq_shift i.isLt d

/-! ## Paths -/

/-- Goes from neighbour to neighbour in the directions of the path. -/
def follow (t : Torus) (path : List Direction) (i : Nat) : Except Fault Nat :=
  path.foldlM t.neighbor i

private theorem follow_eq_shift (t : Torus) (path : List Direction) {i : Nat} (hi : i < t.size) :
    t.follow path i = .ok (t.shift (path.map t.columns).sum (path.map t.rows).sum i) := by
  induction path generalizing i with
  | nil => rw [List.map_nil, List.map_nil, List.sum_nil, t.shift_zero hi]; rfl
  | cons d path ih =>
    rw [follow, List.foldlM_cons, t.neighbor_eq_shift hi, ok_bind]
    rw [List.map_cons, List.map_cons, List.sum_cons, List.sum_cons, ← shift_shift]
    exact ih (t.shift_lt (t.columns d) (t.rows d) i)

/-- Nothing but the numbers of steps in each direction matters. -/
theorem follow_perm (t : Torus) {path path' : List Direction} (h : path.Perm path') {i : Nat}
    (hi : i < t.size) : t.follow path i = t.follow path' i := by
  rw [t.follow_eq_shift path hi, t.follow_eq_shift path' hi, (h.map t.columns).sum_nat,
    (h.map t.rows).sum_nat]

private theorem dvd_mul_sub_one_iff {n k : Nat} (hn : 0 < n) : n ∣ k * (n - 1) ↔ n ∣ k := by
  have hcoprime : Nat.Coprime n (n - 1) :=
    (Nat.coprime_self_sub_right hn).2 (Nat.coprime_one_right n)
  exact hcoprime.dvd_mul_right

/-- The number of programs that one passes in the direction, once round the torus. -/
def side (t : Torus) : Direction → Nat
  | .east | .west => t.width
  | .south | .north => t.height

private theorem follow_replicate_eq_self_iff (t : Torus) (d : Direction) (k : Nat) {i : Nat}
    (hi : i < t.size) : t.follow (List.replicate k d) i = .ok i ↔ t.side d ∣ k := by
  have hshift : t.follow (List.replicate k d) i = .ok i ↔
      t.width ∣ k * t.columns d ∧ t.height ∣ k * t.rows d := by
    rw [t.follow_eq_shift _ hi, Except.ok.injEq, t.shift_eq_self_iff hi, List.map_replicate,
      List.map_replicate, List.sum_replicate_nat, List.sum_replicate_nat]
  rw [hshift]
  cases d <;> simp [side, columns, rows, dvd_mul_sub_one_iff, t.width_pos, t.height_pos]

private theorem follow_of_perm (t : Torus) {path : List Direction} {a b i : Nat} (hi : i < t.size)
    (h : path.Perm (List.replicate a .east ++ List.replicate b .south)) :
    t.follow path i = .ok (t.shift a b i) := by
  rw [t.follow_perm h hi, t.follow_eq_shift _ hi]
  simp [columns, rows]

/-- The neighbours of a program in opposite directions have it as their neighbour on the other
side, and of two steps in a row either may come first.  Each direction permutes the programs.
It leads back to where it began after whole rounds and not before.  Every program is reached
from every other one by fewer steps to the east than there are columns and fewer steps to the
south than there are rows, in any order but with no other numbers of steps. -/
theorem directions_form_group (width height : Nat) (t : Torus)
    (h : ofSides width height = .ok t) :
    (∀ d, ∃ σ : Equiv.Perm (Fin t.size), ∀ i : Fin t.size, t.neighbor i d = .ok (σ i)) ∧
    ∀ i < t.size,
      (∀ d, ∃ j, t.neighbor i d = .ok j ∧ t.neighbor j d.opposite = .ok i) ∧
      (∀ d e, ∃ j j' k, (t.neighbor i d = .ok j ∧ t.neighbor j e = .ok k) ∧
        t.neighbor i e = .ok j' ∧ t.neighbor j' d = .ok k) ∧
      (∀ d ∈ [Direction.east, .west], ∀ k,
        t.follow (List.replicate k d) i = .ok i ↔ width ∣ k) ∧
      (∀ d ∈ [Direction.south, .north], ∀ k,
        t.follow (List.replicate k d) i = .ok i ↔ height ∣ k) ∧
      ∀ j < t.size, ∃ a < width, ∃ b < height,
        ∀ a' < width, ∀ b' < height, ∀ path : List Direction,
          path.Perm (List.replicate a' .east ++ List.replicate b' .south) →
            (t.follow path i = .ok j ↔ a' = a ∧ b' = b) := by
  obtain ⟨rfl, rfl⟩ := sides_of_ofSides h
  have hrow : ∀ d ∈ [Direction.east, .west], t.side d = t.width := by simp [side]
  have hcolumn : ∀ d ∈ [Direction.south, .north], t.side d = t.height := by simp [side]
  refine ⟨fun d => ⟨t.move d, t.neighbor_eq_move d⟩, fun i hi => ⟨fun d => ?_, fun d e => ?_,
    fun d hd k => hrow d hd ▸ t.follow_replicate_eq_self_iff d k hi,
    fun d hd k => hcolumn d hd ▸ t.follow_replicate_eq_self_iff d k hi, fun j hj => ?_⟩⟩
  · have hnext := t.neighbor_eq_shift hi d
    exact ⟨_, hnext, t.neighbor_opposite hi hnext⟩
  · refine ⟨_, _, _, ⟨t.neighbor_eq_shift hi d, t.neighbor_eq_shift (t.shift_lt ..) e⟩,
      t.neighbor_eq_shift hi e, ?_⟩
    rw [t.neighbor_eq_shift (t.shift_lt ..), shift_comm]
  · obtain ⟨a, ha, b, hb, rfl⟩ := t.exists_shift hi hj
    refine ⟨a, ha, b, hb, fun a' ha' b' hb' path hpath => ?_⟩
    rw [t.follow_of_perm hi hpath, Except.ok.injEq, shift_eq_iff]
    constructor
    · rintro ⟨hcolumns, hrows⟩
      exact ⟨hcolumns.eq_of_lt_of_lt ha' ha, hrows.eq_of_lt_of_lt hb' hb⟩
    · rintro ⟨rfl, rfl⟩
      exact ⟨rfl, rfl⟩

/-- On a torus with three columns and two rows three steps to the east lead back to where they
began and two do not.  The only way from program 4 to program 0 by less than three steps to
the east and less than two to the south is by two to the east and one to the south. -/
theorem directions_form_group_threeByTwo :
    ∃ t, ofSides 3 2 = .ok t ∧
      t.follow [.east, .east, .east] 4 = .ok 4 ∧ t.follow [.east, .east] 4 ≠ .ok 4 ∧
      t.follow [.east, .south, .east] 4 = .ok 0 ∧
      ∀ a < 3, ∀ b < 2,
        t.follow (List.replicate a .east ++ List.replicate b .south) 4 = .ok 0 →
          a = 2 ∧ b = 1 := by
  refine ⟨_, rfl, ?_⟩
  obtain ⟨-, -, hrow, -, hreach⟩ := (directions_form_group 3 2 _ rfl).2 4 (by decide)
  obtain ⟨a, -, b, -, hunique⟩ := hreach 0 (by decide)
  have hpath : a = 2 ∧ b = 1 := by
    obtain ⟨rfl, rfl⟩ := (hunique 2 (by decide) 1 (by decide) _ (List.Perm.refl _)).1 (by rfl)
    exact ⟨rfl, rfl⟩
  obtain ⟨rfl, rfl⟩ := hpath
  refine ⟨(hrow .east (by decide) 3).2 (by decide),
    fun h => absurd ((hrow .east (by decide) 2).1 h) (by decide), by rfl, ?_⟩
  exact fun a' ha b' hb => (hunique a' ha b' hb _ (List.Perm.refl _)).1

end Torus
end TapeTorus
