import TapeTorus.Proofs.Footprint

/-!
# Shifts of the torus

A shift moves every program by the same numbers of columns and rows, round the torus.
Shifts add up, so they commute and can be undone.  The four neighbours of a program
are shifts of it (`Torus.neighbor_eq_shift`), with no special case at the edges, and
therefore every shift takes neighbours to neighbours.
-/

namespace TapeTorus

namespace Torus

/-- The program `dx` columns to the right of `i` and `dy` rows below it. -/
def shift (t : Torus) (dx dy i : Nat) : Nat :=
  (i / t.width + dy) % t.height * t.width + (i % t.width + dx) % t.width

theorem shift_lt (t : Torus) (dx dy i : Nat) : t.shift dx dy i < t.size := by
  apply t.index_lt
  · exact Nat.mod_lt _ t.width_pos
  · exact Nat.mod_lt _ t.height_pos

theorem shift_mod (t : Torus) (dx dy i : Nat) :
    t.shift dx dy i % t.width = (i % t.width + dx) % t.width := by
  rw [shift, Nat.mul_add_mod_self_right, Nat.mod_mod]

theorem shift_div (t : Torus) (dx dy i : Nat) :
    t.shift dx dy i / t.width = (i / t.width + dy) % t.height := by
  have hlt : (i % t.width + dx) % t.width < t.width := Nat.mod_lt _ t.width_pos
  rw [shift, Size.row_of_place hlt]

theorem eq_of_coords (t : Torus) {i j : Nat} (hcolumn : i % t.width = j % t.width)
    (hrow : i / t.width = j / t.width) : i = j :=
  calc i = t.width * (i / t.width) + i % t.width := (Nat.div_add_mod i t.width).symm
    _ = t.width * (j / t.width) + j % t.width := by rw [hcolumn, hrow]
    _ = j := Nat.div_add_mod j t.width

theorem index_shift (t : Torus) {x y : Nat} (hx : x < t.width) (hy : y < t.height)
    (dx dy : Nat) : ∃ i, t.index x y = .ok i ∧
      t.index ((x + dx) % t.width) ((y + dy) % t.height) = .ok (t.shift dx dy i) := by
  refine ⟨y * t.width + x, t.index_eq_ok hx hy, ?_⟩
  rw [t.index_eq_ok (Nat.mod_lt _ t.width_pos) (Nat.mod_lt _ t.height_pos), shift,
    Size.row_of_place hx, Nat.mul_add_mod_of_lt hx]

/-! ## Shifts add up -/

theorem shift_shift (t : Torus) (dx dy ex ey i : Nat) :
    t.shift dx dy (t.shift ex ey i) = t.shift (ex + dx) (ey + dy) i := by
  apply t.eq_of_coords
  · rw [shift_mod, shift_mod, shift_mod, Nat.mod_add_mod, Nat.add_assoc]
  · rw [shift_div, shift_div, shift_div, Nat.mod_add_mod, Nat.add_assoc]

theorem shift_comm (t : Torus) (dx dy ex ey i : Nat) :
    t.shift dx dy (t.shift ex ey i) = t.shift ex ey (t.shift dx dy i) := by
  rw [shift_shift, shift_shift, Nat.add_comm ex, Nat.add_comm ey]

/-- The shift that undoes another. -/
def unshift (t : Torus) (dx dy i : Nat) : Nat :=
  t.shift (t.width - dx % t.width) (t.height - dy % t.height) i

private theorem add_undo (a d : Nat) {n : Nat} (hn : 0 < n) :
    (a + (d + (n - d % n))) % n = a % n := by
  have hlt : d % n < n := Nat.mod_lt d hn
  have hround : d + (n - d % n) = n * (d / n + 1) := by
    have hsplit := Nat.div_add_mod d n
    rw [Nat.mul_add, Nat.mul_one]
    omega
  rw [hround, Nat.add_mul_mod_self_left]

theorem unshift_shift (t : Torus) (dx dy : Nat) {i : Nat} (hi : i < t.size) :
    t.unshift dx dy (t.shift dx dy i) = i := by
  rw [unshift, shift_shift]
  apply t.eq_of_coords
  · rw [shift_mod, add_undo _ _ t.width_pos, Nat.mod_mod]
  · rw [shift_div, add_undo _ _ t.height_pos, Nat.mod_eq_of_lt (t.row_lt hi)]

theorem shift_unshift (t : Torus) (dx dy : Nat) {i : Nat} (hi : i < t.size) :
    t.shift dx dy (t.unshift dx dy i) = i := by
  rw [unshift, shift_comm]
  exact t.unshift_shift dx dy hi

private theorem unshift_eq_iff (t : Torus) (dx dy : Nat) {i j : Nat} (hi : i < t.size)
    (hj : j < t.size) : t.unshift dx dy j = i ↔ j = t.shift dx dy i := by
  constructor
  · rintro rfl
    exact (t.shift_unshift dx dy hj).symm
  · rintro rfl
    exact t.unshift_shift dx dy hi

/-! ## Neighbours -/

/-- How many columns to the right the neighbour is. -/
def columns (t : Torus) : Direction → Nat
  | .east => 1
  | .west => t.width - 1
  | .south | .north => 0

/-- How many rows below the neighbour is. -/
def rows (t : Torus) : Direction → Nat
  | .east | .west => 0
  | .south => 1
  | .north => t.height - 1

private theorem next_mod {a n : Nat} (ha : a < n) :
    (a + 1) % n = if a = n - 1 then 0 else a + 1 := by
  by_cases hlast : a = n - 1
  · have hwrap : a + 1 = n := by omega
    rw [if_pos hlast, hwrap, Nat.mod_self]
  · rw [if_neg hlast, Nat.mod_eq_of_lt (by omega)]

private theorem previous_mod {a n : Nat} (ha : a < n) :
    (a + (n - 1)) % n = if a = 0 then n - 1 else a - 1 := by
  by_cases hfirst : a = 0
  · rw [if_pos hfirst, hfirst, Nat.zero_add, Nat.mod_eq_of_lt (by omega)]
  · have hwrap : a + (n - 1) = a - 1 + n := by omega
    rw [if_neg hfirst, hwrap, Nat.add_mod_right, Nat.mod_eq_of_lt (by omega)]

private theorem shift_columns (t : Torus) {i : Nat} (hi : i < t.size) (dx : Nat) :
    t.shift dx 0 i = t.width * (i / t.width) + (i % t.width + dx) % t.width := by
  rw [shift, Nat.add_zero, Nat.mod_eq_of_lt (t.row_lt hi), Nat.mul_comm]

private theorem shift_rows (t : Torus) (dy i : Nat) :
    t.shift 0 dy i = t.width * ((i / t.width + dy) % t.height) + i % t.width := by
  rw [shift, Nat.add_zero, Nat.mod_mod, Nat.mul_comm]

private theorem lastRow_eq (t : Torus) : t.size - t.width = t.width * (t.height - 1) := by
  rw [size, Nat.mul_sub, Nat.mul_one]

private theorem lastRow_le_iff (t : Torus) {i : Nat} (hi : i < t.size) :
    t.size - t.width ≤ i ↔ i / t.width = t.height - 1 := by
  have hrow := t.row_lt hi
  rw [lastRow_eq, Nat.mul_comm, ← Nat.le_div_iff_mul_le t.width_pos]
  omega

private theorem lt_width_iff (t : Torus) {i : Nat} : i < t.width ↔ i / t.width = 0 := by
  rw [Nat.div_eq_zero_iff_lt t.width_pos]

theorem neighbor_eq_shift (t : Torus) {i : Nat} (hi : i < t.size) (d : Direction) :
    t.neighbor i d = .ok (t.shift (t.columns d) (t.rows d) i) := by
  have hwidth := t.width_pos
  have hle := t.width_le_size
  have hsize := t.size_lt
  have hsplit := Nat.div_add_mod i t.width
  have hcolumn : i % t.width < t.width := Nat.mod_lt i hwidth
  have hrow := t.row_le_size hi
  cases d with
  | east =>
    simp only [neighbor, columns, rows, Size.sub_eq_ok (show 1 ≤ t.width by omega), ok_bind]
    rw [t.shift_columns hi, next_mod hcolumn]
    split
    · rw [Size.sub_eq_ok (by omega), Except.ok.injEq]
      omega
    · rw [Size.add_eq_ok (by omega), Except.ok.injEq]
      omega
  | west =>
    simp only [neighbor, columns, rows, Size.sub_eq_ok (show 1 ≤ t.width by omega), ok_bind]
    rw [t.shift_columns hi, previous_mod hcolumn]
    split
    · rw [Size.add_eq_ok (by omega), Except.ok.injEq]
      omega
    · rw [Size.sub_eq_ok (by omega), Except.ok.injEq]
      omega
  | south =>
    simp only [neighbor, columns, rows, Size.sub_eq_ok hle, ok_bind]
    rw [t.shift_rows, next_mod (t.row_lt hi)]
    by_cases hlast : i / t.width = t.height - 1
    · have hback := (t.lastRow_le_iff hi).2 hlast
      rw [if_pos hback, if_pos hlast, Size.sub_eq_ok hback, Except.ok.injEq, lastRow_eq,
        Nat.mul_zero, Nat.zero_add]
      rw [hlast] at hsplit
      omega
    · have hnext := mt (t.lastRow_le_iff hi).1 hlast
      rw [if_neg hnext, if_neg hlast, Size.add_eq_ok (by omega), Except.ok.injEq, Nat.mul_add,
        Nat.mul_one]
      omega
  | north =>
    simp only [neighbor, columns, rows, Size.sub_eq_ok hle, ok_bind]
    rw [t.shift_rows, previous_mod (t.row_lt hi)]
    by_cases hfirst : i / t.width = 0
    · have hback := t.lt_width_iff.2 hfirst
      rw [if_pos hback, if_pos hfirst, Size.add_eq_ok (by omega), Except.ok.injEq, lastRow_eq]
      rw [hfirst, Nat.mul_zero] at hsplit
      omega
    · have hback := mt t.lt_width_iff.1 hfirst
      have habove : t.width * (i / t.width) = t.width * (i / t.width - 1) + t.width := by
        rw [← Nat.mul_succ, Nat.succ_eq_add_one, Nat.sub_add_cancel (Nat.pos_of_ne_zero hfirst)]
      rw [if_neg hback, if_neg hfirst, Size.sub_eq_ok (by omega), Except.ok.injEq]
      omega

/-- A shift takes the neighbours of a program to those of the program that it goes to. -/
theorem neighbor_shift (t : Torus) (dx dy : Nat) {i : Nat} (hi : i < t.size) (d : Direction) :
    t.neighbor (t.shift dx dy i) d = (t.neighbor i d).map (t.shift dx dy) := by
  rw [t.neighbor_eq_shift (t.shift_lt dx dy i), t.neighbor_eq_shift hi, shift_comm]
  rfl

end Torus

/-! ## Shifted tapes -/

namespace Store

/-- Every program is given the tape of the program that `source` names. -/
def reorder (s : Store) (source : Nat → Nat) : Store :=
  { s with
    cells := Array.ofFn fun i : Fin (s.programs * s.tapeLength) =>
      s.cell (source (i / s.tapeLength)) (i % s.tapeLength)
    size_eq := Array.size_ofFn }

private theorem reorder_sameShape (s : Store) (source : Nat → Nat) :
    (s.reorder source).SameShape s :=
  ⟨rfl, rfl⟩

private theorem cell_reorder (s : Store) (source : Nat → Nat) {p o : Nat} (hp : p < s.programs)
    (ho : o < s.tapeLength) : (s.reorder source).cell p o = s.cell (source p) o := by
  have hslot := s.slot_lt hp ho
  calc (s.reorder source).cell p o
      = s.cell (source ((p * s.tapeLength + o) / s.tapeLength))
          ((p * s.tapeLength + o) % s.tapeLength) := by simp [cell, reorder, hslot]
    _ = s.cell (source p) o := by rw [Size.row_of_place ho, Nat.mul_add_mod_of_lt ho]

/-- Every tape moves with its program. -/
def shifted (s : Store) (t : Torus) (dx dy : Nat) : Store := s.reorder (t.unshift dx dy)

variable {s : Store} {t : Torus} (dx dy : Nat)

theorem shifted_sameShape (s : Store) (t : Torus) : (s.shifted t dx dy).SameShape s :=
  s.reorder_sameShape _

theorem cell_shifted (hprograms : s.programs = t.size) {p o : Nat} (hp : p < s.programs)
    (ho : o < s.tapeLength) : (s.shifted t dx dy).cell (t.shift dx dy p) o = s.cell p o := by
  have hshift : t.shift dx dy p < s.programs := hprograms ▸ t.shift_lt dx dy p
  rw [shifted, s.cell_reorder _ hshift ho, t.unshift_shift dx dy (hprograms ▸ hp)]

theorem load_shifted (hprograms : s.programs = t.size) {p : Nat} (hp : p < s.programs) :
    (s.shifted t dx dy).load (t.shift dx dy p) = s.load p := by
  have hshift : t.shift dx dy p < s.programs := hprograms ▸ t.shift_lt dx dy p
  have hshape := s.shifted_sameShape dx dy t
  funext o
  by_cases ho : o < s.tapeLength
  · rw [s.load_eq_ok hp ho, load_eq_ok _ (hshape.programs_eq ▸ hshift) (hshape.tapeLength_eq ▸ ho),
      cell_shifted dx dy hprograms hp ho]
  · rw [s.load_eq_error fun h => ho h.2,
      load_eq_error _ fun h => ho (hshape.tapeLength_eq ▸ h.2)]

private theorem update_shifted (hprograms : s.programs = t.size) {p o : Nat} (hp : p < s.programs)
    (ho : o < s.tapeLength) (value : UInt8) :
    (s.shifted t dx dy).update (t.shift dx dy p) o value =
      (s.update p o value).shifted t dx dy := by
  have hshift : t.shift dx dy p < s.programs := hprograms ▸ t.shift_lt dx dy p
  refine eq_of_agreeOn ⟨rfl, rfl⟩ fun q hq => ⟨⟨rfl, rfl⟩, fun o' ho' => ?_⟩
  have hq : q < s.programs := hq
  have ho' : o' < s.tapeLength := ho'
  have hmoved : (s.update p o value).cell (t.unshift dx dy q) o' =
      if t.unshift dx dy q = p ∧ o' = o then value else s.cell (t.unshift dx dy q) o' :=
    s.cell_update value hp ho ho'
  have hplace := t.unshift_eq_iff dx dy (hprograms ▸ hp) (hprograms ▸ hq)
  calc ((s.shifted t dx dy).update (t.shift dx dy p) o value).cell q o'
      = if q = t.shift dx dy p ∧ o' = o then value else (s.shifted t dx dy).cell q o' :=
        (s.shifted t dx dy).cell_update value hshift ho ho'
    _ = if q = t.shift dx dy p ∧ o' = o then value else s.cell (t.unshift dx dy q) o' := by
        rw [shifted, s.cell_reorder _ hq ho']
    _ = (s.update p o value).cell (t.unshift dx dy q) o' := by simp only [hmoved, hplace]
    _ = ((s.update p o value).shifted t dx dy).cell q o' :=
        ((s.update p o value).cell_reorder _ hq ho').symm

theorem write_shifted (hprograms : s.programs = t.size) {p : Nat} (hp : p < s.programs)
    (o : Nat) (value : UInt8) :
    (s.shifted t dx dy).write (t.shift dx dy p) o value =
      (s.write p o value).map (·.shifted t dx dy) := by
  have hshift : t.shift dx dy p < s.programs := hprograms ▸ t.shift_lt dx dy p
  by_cases ho : o < s.tapeLength
  · rw [s.write_eq_ok value hp ho, (s.shifted t dx dy).write_eq_ok value hshift ho,
      update_shifted dx dy hprograms hp ho]
    rfl
  · rw [s.write_eq_error value fun h => ho h.2,
      (s.shifted t dx dy).write_eq_error value fun h => ho h.2]
    rfl

end Store
end TapeTorus
