import Mathlib.Data.List.Nodup
import Mathlib.Data.List.Perm.Subperm
import Mathlib.Data.List.ProdSigma
import TapeTorus.Proofs.Buffers
import TapeTorus.Proofs.TapeSides

/-!
# The layout of a frame

A frame shows every cell once: the cells of the pixels, taken over the whole image, are all
cells of the buffer in another order.  So what can be counted on the picture can be counted
on the cells.
-/

namespace TapeTorus

namespace Frame

variable {side gridWidth gridHeight x y x' y' program offset : Nat}

/-! ## Pixels and cells -/

private theorem inner_lt (hside : 0 < side) : y % side * side + x % side < side * side :=
  Size.place_lt (Nat.mod_lt _ hside) (Nat.mod_lt _ hside)

private theorem tile_lt (hx : x < side * gridWidth) (hy : y < side * gridHeight) :
    y / side * gridWidth + x / side < gridHeight * gridWidth :=
  Size.place_lt (Nat.div_lt_of_lt_mul hy) (Nat.div_lt_of_lt_mul hx)

private theorem cellOf_lt (hside : 0 < side) (hx : x < side * gridWidth)
    (hy : y < side * gridHeight) :
    cellOf side (side * side) gridWidth x y < gridHeight * gridWidth * (side * side) :=
  Size.place_lt (tile_lt hx hy) (inner_lt hside)

theorem cellOf_inj (hside : 0 < side) (hx : x < side * gridWidth) (hx' : x' < side * gridWidth)
    (h : cellOf side (side * side) gridWidth x y = cellOf side (side * side) gridWidth x' y') :
    x = x' ∧ y = y' := by
  obtain ⟨htile, hinner⟩ := (Size.place_inj (inner_lt hside) (inner_lt hside)).1 h
  obtain ⟨hrow, hcolumn⟩ :=
    (Size.place_inj (Nat.div_lt_of_lt_mul hx) (Nat.div_lt_of_lt_mul hx')).1 htile
  obtain ⟨hrow', hcolumn'⟩ :=
    (Size.place_inj (Nat.mod_lt _ hside) (Nat.mod_lt _ hside)).1 hinner
  constructor
  · rw [← Nat.div_add_mod x side, hcolumn, hcolumn', Nat.div_add_mod]
  · rw [← Nat.div_add_mod y side, hrow, hrow', Nat.div_add_mod]

/-- The pixels inside a frame show cells of its programs. -/
theorem program_lt (hside : 0 < side) (hx : x < side * gridWidth) (hy : y < side * gridHeight)
    (hoffset : offset < side * side)
    (hcell : cellOf side (side * side) gridWidth x y = program * (side * side) + offset) :
    program < gridHeight * gridWidth := by
  obtain ⟨htile, -⟩ := (Size.place_inj (inner_lt hside) hoffset).1 hcell
  rw [← htile]
  exact tile_lt hx hy

/-- The column in which a cell is drawn. -/
def column (side gridWidth program offset : Nat) : Nat :=
  program % gridWidth * side + offset % side

/-- The row in which a cell is drawn. -/
def row (side gridWidth program offset : Nat) : Nat :=
  program / gridWidth * side + offset / side

theorem column_lt (hside : 0 < side) (hgrid : 0 < gridWidth) :
    column side gridWidth program offset < side * gridWidth := by
  rw [Nat.mul_comm]
  exact Size.place_lt (Nat.mod_lt _ hgrid) (Nat.mod_lt _ hside)

theorem row_lt (hprogram : program < gridWidth * gridHeight) (hoffset : offset < side * side) :
    row side gridWidth program offset < side * gridHeight := by
  rw [Nat.mul_comm]
  exact Size.place_lt (Nat.div_lt_of_lt_mul hprogram) (Nat.div_lt_of_lt_mul hoffset)

theorem cellOf_column_row (hside : 0 < side) (hoffset : offset < side * side) :
    cellOf side (side * side) gridWidth (column side gridWidth program offset)
      (row side gridWidth program offset) = program * (side * side) + offset := by
  have hlow : offset % side < side := Nat.mod_lt _ hside
  have hhigh : offset / side < side := Nat.div_lt_of_lt_mul hoffset
  rw [cellOf, column, row, Size.row_of_place hlow, Size.row_of_place hhigh,
    Nat.mul_add_mod_of_lt hlow, Nat.mul_add_mod_of_lt hhigh, Nat.div_add_mod',
    Nat.div_add_mod']

/-! ## Painting -/

/-- The three bytes of the pixel with number `i`. -/
def Holds (pixels : Array UInt8) (i : Nat) (c : Color) : Prop :=
  pixels[i * 3]? = some c.red ∧ pixels[i * 3 + 1]? = some c.green ∧
    pixels[i * 3 + 2]? = some c.blue

/-- The first `n` pixels are painted in the colours of their cells. -/
structure Painted (cells : Array UInt32) (side gridWidth width n : Nat) (pixels : Array UInt8) :
    Prop where
  size_eq : pixels.size = n * 3
  holds : ∀ i < n, ∃ value,
    cells[cellOf side (side * side) gridWidth (i % width) (i / width)]? = some value ∧
      Holds pixels i (Color.ofCell value)

variable {cells : Array UInt32} {pixels : Array UInt8} {width n : Nat}

private theorem paint_painted (h : Painted cells side gridWidth width n pixels)
    (hcell : cellOf side (side * side) gridWidth (n % width) (n / width) < cells.size) :
    ∃ pixels', paint cells side (side * side) gridWidth width pixels n = .ok pixels' ∧
      Painted cells side gridWidth width (n + 1) pixels' := by
  have hvalue := Array.getElem?_eq_getElem hcell
  generalize cells[cellOf side (side * side) gridWidth (n % width) (n / width)] = value at hvalue
  generalize hcolor : Color.ofCell value = c
  have hpaint : paint cells side (side * side) gridWidth width pixels n =
      .ok (pixels ++ #[c.red, c.green, c.blue]) := by
    rw [paint, hvalue, ← hcolor]
    simp [← Array.toList_inj]
  refine ⟨_, hpaint, ?_, ?_⟩
  · rw [Array.size_append, h.size_eq, Nat.succ_mul]
    rfl
  · intro i hi
    by_cases hlast : i = n
    · subst hlast
      refine ⟨value, hvalue, ?_⟩
      rw [hcolor, Holds, ← h.size_eq]
      simp
    · obtain ⟨old, hold, hred, hgreen, hblue⟩ := h.holds i (by omega)
      have hkept : ∀ k < n * 3, (pixels ++ #[c.red, c.green, c.blue])[k]? = pixels[k]? := by
        intro k hk
        exact Array.getElem?_append_left (h.size_eq ▸ hk)
      refine ⟨old, hold, ?_, ?_, ?_⟩
      · rw [hkept _ (by omega), hred]
      · rw [hkept _ (by omega), hgreen]
      · rw [hkept _ (by omega), hblue]

private theorem paintAll_painted
    (hcells : ∀ i < n, cellOf side (side * side) gridWidth (i % width) (i / width) < cells.size) :
    ∃ pixels,
      (List.range n).foldlM (paint cells side (side * side) gridWidth width) #[] = .ok pixels ∧
        Painted cells side gridWidth width n pixels := by
  induction n with
  | zero => exact ⟨#[], rfl, rfl, by simp⟩
  | succ n ih =>
    obtain ⟨before, hbefore, hpainted⟩ := ih fun i hi => hcells i (by omega)
    obtain ⟨pixels, hpaint, hnext⟩ := paint_painted hpainted (hcells n (by omega))
    refine ⟨pixels, ?_, hnext⟩
    rw [List.range_succ, List.foldlM_append, hbefore, ok_bind, List.foldlM_cons, hpaint]
    rfl

/-! ## Rendering -/

/-- The frame shows the cells of `gridWidth × gridHeight` tapes as squares. -/
structure Shows (f : Frame) (cells : Array UInt32) (side gridWidth gridHeight : Nat) : Prop where
  width_eq : f.width = side * gridWidth
  height_eq : f.height = side * gridHeight
  size_eq : f.pixels.size = f.width * f.height * 3
  pixel_eq : ∀ x < f.width, ∀ y < f.height, ∃ value,
    cells[cellOf side (side * side) gridWidth x y]? = some value ∧
      f.pixel x y = .ok (Color.ofCell value)

private theorem pixel_of_painted {f : Frame} (hfits : f.width * f.height * 3 < Size.limit)
    (h : Painted cells side gridWidth f.width (f.width * f.height) f.pixels)
    (hx : x < f.width) (hy : y < f.height) :
    ∃ value, cells[cellOf side (side * side) gridWidth x y]? = some value ∧
      f.pixel x y = .ok (Color.ofCell value) := by
  have hplace : y * f.width + x < f.width * f.height := by
    rw [Nat.mul_comm f.width]
    exact Size.place_lt hy hx
  obtain ⟨value, hvalue, hred, hgreen, hblue⟩ := h.holds _ hplace
  rw [Nat.mul_add_mod_of_lt hx, Size.row_of_place hx] at hvalue
  refine ⟨value, hvalue, ?_⟩
  rw [pixel, Size.mul_eq_ok (by omega), ok_bind, Size.add_eq_ok (by omega), ok_bind,
    Size.mul_eq_ok (by omega), ok_bind, hred, hgreen, hblue]

/-- A buffer of whole square tapes is rendered if its sizes can be counted. -/
theorem render_of_sizes (hroot : tapeSide (side * side) = .ok (some side)) (hside : 0 < side)
    (hcells : cells.size = gridHeight * gridWidth * (side * side))
    (hfits : cells.size * 3 < Size.limit) (hrow : side * side * gridWidth < Size.limit)
    (hwidth : side * gridWidth < Size.limit) (hheight : side * gridHeight < Size.limit) :
    ∃ f, render cells (side * side) gridWidth gridHeight = .ok f ∧
      f.Shows cells side gridWidth gridHeight := by
  have harea : side * gridWidth * (side * gridHeight) = cells.size := by
    rw [hcells]
    ring
  have hexpected : side * side * gridWidth * gridHeight = cells.size := by
    rw [hcells]
    ring
  have hinside : ∀ i < side * gridWidth * (side * gridHeight),
      cellOf side (side * side) gridWidth (i % (side * gridWidth)) (i / (side * gridWidth)) <
        cells.size := by
    intro i hi
    have hw : 0 < side * gridWidth := Nat.pos_of_mul_pos_right (Nat.zero_lt_of_lt hi)
    rw [hcells]
    exact cellOf_lt hside (Nat.mod_lt _ hw) (Nat.div_lt_of_lt_mul hi)
  obtain ⟨pixels, hpixels, hpainted⟩ := paintAll_painted hinside
  refine ⟨⟨side * gridWidth, side * gridHeight, pixels⟩, ?_, rfl, rfl, hpainted.size_eq, ?_⟩
  · rw [render, hroot]
    simp only [Fault.lift_ok, ok_bind, Option.getD_some, Error.require_eq_ok hside,
      Size.mul_eq_ok hrow,
      Size.mul_eq_ok (show side * side * gridWidth * gridHeight < Size.limit by omega),
      Error.require_eq_ok hexpected.symm, Size.mul_eq_ok hwidth, Size.mul_eq_ok hheight,
      Size.mul_eq_ok (show side * gridWidth * (side * gridHeight) < Size.limit by omega),
      Size.mul_eq_ok (show side * gridWidth * (side * gridHeight) * 3 < Size.limit by omega),
      hpixels, pure_eq_ok]
  · intro x hx y hy
    exact pixel_of_painted (by dsimp only; omega) hpainted hx hy

/-- On a grid that has programs the sizes can be counted if the pixels can. -/
theorem render_shows (hroot : tapeSide (side * side) = .ok (some side)) (hside : 0 < side)
    (hwidth : 0 < gridWidth) (hheight : 0 < gridHeight)
    (hcells : cells.size = gridHeight * gridWidth * (side * side))
    (hfits : cells.size * 3 < Size.limit) :
    ∃ f, render cells (side * side) gridWidth gridHeight = .ok f ∧
      f.Shows cells side gridWidth gridHeight := by
  have harea : side * gridWidth * (side * gridHeight) = cells.size := by
    rw [hcells]
    ring
  have hexpected : side * side * gridWidth * gridHeight = cells.size := by
    rw [hcells]
    ring
  have hw : 0 < side * gridWidth := Nat.mul_pos hside hwidth
  have hh : 0 < side * gridHeight := Nat.mul_pos hside hheight
  have hrow : side * side * gridWidth ≤ cells.size := by
    rw [← hexpected]
    exact Nat.le_mul_of_pos_right _ hheight
  have hwidth' : side * gridWidth ≤ cells.size := by
    rw [← harea]
    exact Nat.le_mul_of_pos_right _ hh
  have hheight' : side * gridHeight ≤ cells.size := by
    rw [← harea]
    exact Nat.le_mul_of_pos_left _ hw
  exact render_of_sizes hroot hside hcells hfits (by omega) (by omega) (by omega)

/-! ## Counting pixels -/

/-- Column and row of every pixel. -/
def places (f : Frame) : List (Nat × Nat) := List.range f.width ×ˢ List.range f.height

theorem mem_places {f : Frame} {place : Nat × Nat} :
    place ∈ f.places ↔ place.1 < f.width ∧ place.2 < f.height := by
  rw [places, List.mem_product, List.mem_range, List.mem_range]

theorem Shows.cells_perm {f : Frame} (h : f.Shows cells side gridWidth gridHeight)
    (hside : 0 < side) (hcells : cells.size = gridHeight * gridWidth * (side * side)) :
    (f.places.map fun place => cellOf side (side * side) gridWidth place.1 place.2).Perm
      (List.range cells.size) := by
  have hnodup : f.places.Nodup := List.nodup_range.product List.nodup_range
  have hdistinct : (f.places.map fun place =>
      cellOf side (side * side) gridWidth place.1 place.2).Nodup := by
    apply hnodup.map_on
    intro place hplace place' hplace' heq
    have hx := (mem_places.1 hplace).1
    have hx' := (mem_places.1 hplace').1
    rw [h.width_eq] at hx hx'
    obtain ⟨hcolumn, hrow⟩ := cellOf_inj hside hx hx' heq
    exact Prod.ext hcolumn hrow
  have hinside : (f.places.map fun place =>
      cellOf side (side * side) gridWidth place.1 place.2) ⊆ List.range cells.size := by
    intro cell hcell
    obtain ⟨place, hplace, rfl⟩ := List.mem_map.1 hcell
    obtain ⟨hx, hy⟩ := mem_places.1 hplace
    rw [h.width_eq] at hx
    rw [h.height_eq] at hy
    rw [List.mem_range, hcells]
    exact cellOf_lt hside hx hy
  have hcount : (List.range cells.size).length ≤ (f.places.map fun place =>
      cellOf side (side * side) gridWidth place.1 place.2).length := by
    rw [List.length_range, List.length_map, places, List.length_product, List.length_range,
      List.length_range, h.width_eq, h.height_eq, hcells]
    apply le_of_eq
    ring
  exact (hdistinct.subperm hinside).perm_of_length_le hcount

end Frame

theorem Store.pixels_lt (s : Store) : s.snapshot.size * 3 < Size.limit := by
  have hbytes := s.fits
  rw [s.size_snapshot]
  simp only [cellBytes, Size.tableLimit, Size.limit] at *
  omega

/-- Rendering a world whose tapes are squares gives a frame that shows its cells. -/
theorem World.render_ok {w : World} (h : w.Reachable) {side : Nat}
    (hside : side * side = w.config.tapeLength) :
    0 < side ∧
    w.store.snapshot.size = w.torus.height * w.torus.width * (side * side) ∧
    ∃ f, Frame.render w.store.snapshot w.store.tapeLength w.torus.width w.torus.height = .ok f ∧
      f.Shows w.store.snapshot side w.torus.width w.torus.height := by
  have hsound := h.sound
  have hvalid := ((Config.validate_eq_ok_iff w.config).1 hsound.valid).1
  have hpos : 0 < side := by
    apply Nat.pos_of_ne_zero
    rintro rfl
    omega
  have hsize : w.store.snapshot.size = w.torus.height * w.torus.width * (side * side) := by
    rw [w.store.size_snapshot, hsound.programs_eq, hsound.tapeLength_eq, hside, Torus.size,
      Nat.mul_comm w.torus.width]
  have harea : side * side < Size.limit := by
    simp only [Size.limit]
    omega
  have hroot : Frame.tapeSide (side * side) = .ok (some side) := Frame.tapeSide_eq_some harea
  have hrender := Frame.render_shows hroot hpos w.torus.width_pos w.torus.height_pos hsize
    w.store.pixels_lt
  rw [hside, ← hsound.tapeLength_eq] at hrender
  exact ⟨hpos, hsize, hrender⟩

end TapeTorus
