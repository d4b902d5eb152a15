import TapeTorus.Proofs.Shift

/-!
# Neighbours in coordinates

Columns and rows number the programs of a torus without gaps and without repetition.  In
coordinates a neighbour is one column or one row away, modulo the side
(`Torus.neighbor_in_coordinates`).  All arithmetic on the way is checked, so that an answer
means that no sum, difference or product has left the range of sizes.
-/

namespace TapeTorus

namespace Torus

private theorem exists_ofSides_iff {width height : Nat} :
    (∃ t, ofSides width height = .ok t) ↔
      0 < width ∧ 0 < height ∧ width * height < Size.limit := by
  constructor
  · rintro ⟨t, h⟩
    obtain ⟨rfl, rfl⟩ := sides_of_ofSides h
    exact ⟨t.width_pos, t.height_pos, t.fits⟩
  · rintro ⟨hwidth, hheight, hfits⟩
    exact ⟨_, ofSides_eq_ok hwidth hheight hfits⟩

/-! ## Columns and rows -/

private theorem coords_of_place (t : Torus) {x y : Nat} (hx : x < t.width) :
    t.coords (y * t.width + x) = (x, y) := by
  rw [coords, Nat.mul_add_mod_of_lt hx, Size.row_of_place hx]

private theorem index_coords (t : Torus) {i : Nat} (hi : i < t.size) :
    t.index (i % t.width) (i / t.width) = .ok i := by
  rw [t.index_eq_ok (Nat.mod_lt i t.width_pos) (t.row_lt hi), Nat.div_add_mod']

private theorem neighbor_of_place (t : Torus) {x y : Nat} (hx : x < t.width) (hy : y < t.height)
    (d : Direction) : t.neighbor (y * t.width + x) d =
      t.index ((x + t.columns d) % t.width) ((y + t.rows d) % t.height) := by
  obtain ⟨i, hi, hshift⟩ := t.index_shift hx hy (t.columns d) (t.rows d)
  rw [t.index_eq_ok hx hy, Except.ok.injEq] at hi
  rw [hshift, ← hi]
  exact t.neighbor_eq_shift (t.index_lt hx hy) d

/-- The grids that are accepted are those with programs, and not more of them than can be
counted.  Columns and rows give every program of such a grid its place and every place its
program.  Its neighbours are next to it in its row or in its column, round the torus. -/
theorem neighbor_in_coordinates :
    (∀ width height : Nat, (∃ t, ofSides width height = .ok t) ↔
      0 < width ∧ 0 < height ∧ width * height < Size.limit) ∧
    ∀ (width height : Nat) (t : Torus), ofSides width height = .ok t →
      Size.mul width height = .ok t.size ∧
      (∀ i < t.size, ∃ x < width, ∃ y < height, t.coords i = (x, y) ∧ t.index x y = .ok i) ∧
      ∀ x < width, ∀ y < height, ∃ i < t.size, t.index x y = .ok i ∧ t.coords i = (x, y) ∧
        t.neighbor i .east = t.index ((x + 1) % width) y ∧
        t.neighbor i .west = t.index ((x + width - 1) % width) y ∧
        t.neighbor i .south = t.index x ((y + 1) % height) ∧
        t.neighbor i .north = t.index x ((y + height - 1) % height) ∧
        ∀ d, ∃ j < t.size, t.neighbor i d = .ok j := by
  refine ⟨fun width height => exists_ofSides_iff, fun width height t h => ?_⟩
  obtain ⟨rfl, rfl⟩ := sides_of_ofSides h
  refine ⟨Size.mul_eq_ok t.fits, fun i hi => ?_, fun x hx y hy => ?_⟩
  · exact ⟨i % t.width, Nat.mod_lt i t.width_pos, i / t.width, t.row_lt hi, rfl,
      t.index_coords hi⟩
  · have hplace := t.neighbor_of_place hx hy
    have hcolumn : x % t.width = x := Nat.mod_eq_of_lt hx
    have hrow : y % t.height = y := Nat.mod_eq_of_lt hy
    refine ⟨y * t.width + x, t.index_lt hx hy, t.index_eq_ok hx hy, t.coords_of_place hx,
      ?_, ?_, ?_, ?_, fun d => ?_⟩
    · simpa only [columns, rows, Nat.add_zero, hrow] using hplace .east
    · simpa only [columns, rows, Nat.add_zero, hrow, Nat.add_sub_assoc t.width_pos] using
        hplace .west
    · simpa only [columns, rows, Nat.add_zero, hcolumn] using hplace .south
    · simpa only [columns, rows, Nat.add_zero, hcolumn, Nat.add_sub_assoc t.height_pos] using
        hplace .north
    · obtain ⟨j, hj, hlt⟩ := t.neighbor_ok (t.index_lt hx hy) d
      exact ⟨j, hlt, hj⟩

/-- A grid with one program less than there are sizes, and its last program, whose way to the
east and to the south is back to the first column and to the first row. -/
theorem neighbor_in_coordinates_largest :
    ∃ t i, ofSides 0xffff_ffff 0x1_0000_0001 = .ok t ∧
      Size.mul 0xffff_ffff 0x1_0000_0001 = .ok t.size ∧
      t.index 0xffff_fffe 0x1_0000_0000 = .ok i ∧ t.coords i = (0xffff_fffe, 0x1_0000_0000) ∧
      t.neighbor i .east = t.index 0 0x1_0000_0000 ∧
      t.neighbor i .south = t.index 0xffff_fffe 0 := by
  obtain ⟨t, ht⟩ := (neighbor_in_coordinates.1 0xffff_ffff 0x1_0000_0001).2 (by decide)
  obtain ⟨hsize, -, hplaces⟩ := neighbor_in_coordinates.2 _ _ t ht
  obtain ⟨i, -, hindex, hcoords, heast, -, hsouth, -⟩ :=
    hplaces 0xffff_fffe (by decide) 0x1_0000_0000 (by decide)
  exact ⟨t, i, ht, hsize, hindex, hcoords, heast, hsouth⟩

end Torus
end TapeTorus
