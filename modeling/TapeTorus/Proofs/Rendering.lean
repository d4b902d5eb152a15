import Mathlib.Data.Set.Function
import Mathlib.Data.Set.Prod
import TapeTorus.Proofs.Building
import TapeTorus.Proofs.Layout

/-!
# What is rendered

Whatever is rendered is a world of whole square tapes, and its frame shows every cell once,
in the tile of its program.  All other buffers are refused, as long as the numbers of cells
and pixels that the sizes ask for are themselves sizes.  These are taken before they are
compared, so that beyond this bound a buffer is neither rendered nor refused.
-/

namespace TapeTorus

namespace Frame

variable {cells : Array UInt32} {tapeLength gridWidth gridHeight side program : Nat} {f : Frame}

/-! ## Rendered buffers -/

private theorem sizes_of_render (h : render cells tapeLength gridWidth gridHeight = .ok f) :
    ∃ side, tapeSide tapeLength = .ok (some side) ∧ 0 < side ∧
      cells.size = tapeLength * gridWidth * gridHeight ∧
      tapeLength * gridWidth < Size.limit ∧ side * gridWidth < Size.limit ∧
      side * gridHeight < Size.limit ∧ side * gridWidth * (side * gridHeight) * 3 < Size.limit := by
  simp only [render, bind_eq_ok_iff, Fault.lift_eq_ok_iff, Size.mul_eq_ok_iff,
    Error.require_eq_ok_iff] at h
  obtain ⟨root, hroot, _, hside, _, ⟨hrow, rfl⟩, _, ⟨-, rfl⟩, _, hcells, _, ⟨hwidth, rfl⟩, _,
    ⟨hheight, rfl⟩, _, ⟨-, rfl⟩, _, ⟨hpixels, -⟩, -⟩ := h
  cases root with
  | none => exact absurd hside (Nat.lt_irrefl 0)
  | some side => exact ⟨side, hroot, hside, hcells, hrow, hwidth, hheight, hpixels⟩

/-- Whatever is rendered is a world of whole square tapes, and is shown. -/
theorem shows_of_render (h : render cells tapeLength gridWidth gridHeight = .ok f) :
    ∃ side, 0 < side ∧ side * side = tapeLength ∧
      cells.size = gridHeight * gridWidth * (side * side) ∧ cells.size * 3 < Size.limit ∧
      f.Shows cells side gridWidth gridHeight := by
  obtain ⟨side, hroot, hside, hcells, hrow, hwidth, hheight, hpixels⟩ := sizes_of_render h
  obtain rfl := square_of_tapeSide hroot
  have hcount : cells.size = gridHeight * gridWidth * (side * side) := by
    rw [hcells]
    ring
  have harea : side * gridWidth * (side * gridHeight) = cells.size := by
    rw [hcells]
    ring
  rw [harea] at hpixels
  obtain ⟨f', hrender, hshows⟩ :=
    render_of_sizes hroot hside hcount hpixels hrow hwidth hheight
  obtain rfl : f = f' := Except.ok.inj (h.symm.trans hrender)
  exact ⟨side, hside, rfl, hcount, hpixels, hshows⟩

/-! ## Every cell once -/

/-- The frame shows every cell once, and the tape of each program as a tile that is as many
tiles away from the corner as the program has columns and rows before it. -/
structure Tiles (f : Frame) (cells : Array UInt32) (side gridWidth gridHeight : Nat) : Prop
    extends f.Shows cells side gridWidth gridHeight where
  cells_bijOn : Set.BijOn (fun place => cellOf side (side * side) gridWidth place.1 place.2)
    (Set.Iio f.width ×ˢ Set.Iio f.height) (Set.Iio cells.size)
  tile_at_coords : 0 < gridWidth → 0 < gridHeight →
    ∃ t, Torus.ofSides gridWidth gridHeight = .ok t ∧
      ∀ program < t.size, ∀ dx < side, ∀ dy < side,
        side * (t.coords program).1 + dx < f.width ∧
        side * (t.coords program).2 + dy < f.height ∧
        cellOf side (side * side) gridWidth (side * (t.coords program).1 + dx)
          (side * (t.coords program).2 + dy) = program * (side * side) + (dy * side + dx)

private theorem Shows.bijOn (h : f.Shows cells side gridWidth gridHeight) (hside : 0 < side)
    (hcells : cells.size = gridHeight * gridWidth * (side * side)) :
    Set.BijOn (fun place => cellOf side (side * side) gridWidth place.1 place.2)
      (Set.Iio f.width ×ˢ Set.Iio f.height) (Set.Iio cells.size) := by
  have hplaces : ∀ place : Nat × Nat,
      place ∈ Set.Iio f.width ×ˢ Set.Iio f.height ↔ place ∈ f.places := by
    intro place
    rw [mem_places]
    exact Iff.rfl
  have hperm := h.cells_perm hside hcells
  refine ⟨?_, ?_, ?_⟩
  · intro place hplace
    have hmem := hperm.mem_iff.1 (List.mem_map_of_mem ((hplaces place).1 hplace))
    exact List.mem_range.1 hmem
  · intro place hplace place' hplace' heq
    exact List.inj_on_of_nodup_map (hperm.nodup_iff.2 List.nodup_range)
      ((hplaces place).1 hplace) ((hplaces place').1 hplace') heq
  · intro cell hcell
    obtain ⟨place, hplace, rfl⟩ := List.mem_map.1 (hperm.mem_iff.2 (List.mem_range.2 hcell))
    exact ⟨place, (hplaces place).2 hplace, rfl⟩

private theorem cellOf_tile {dx dy : Nat} (hside : 0 < side) (hdx : dx < side) (hdy : dy < side) :
    cellOf side (side * side) gridWidth (side * (program % gridWidth) + dx)
      (side * (program / gridWidth) + dy) = program * (side * side) + (dy * side + dx) := by
  have hcell : cellOf side (side * side) gridWidth
      (column side gridWidth program (dy * side + dx))
      (row side gridWidth program (dy * side + dx)) = program * (side * side) + (dy * side + dx) :=
    cellOf_column_row hside (Size.place_lt hdy hdx)
  rw [column, row, Nat.mul_add_mod_of_lt hdx, Size.row_of_place hdx] at hcell
  rw [Nat.mul_comm side (program % gridWidth), Nat.mul_comm side (program / gridWidth), hcell]

private theorem Shows.tiles (h : f.Shows cells side gridWidth gridHeight) (hside : 0 < side)
    (hcells : cells.size = gridHeight * gridWidth * (side * side))
    (hfits : cells.size * 3 < Size.limit) : f.Tiles cells side gridWidth gridHeight := by
  refine ⟨h, h.bijOn hside hcells, ?_⟩
  intro hcolumns hrows
  have hprograms : gridWidth * gridHeight < Size.limit := by
    have hle : gridHeight * gridWidth ≤ cells.size := by
      rw [hcells]
      exact Nat.le_mul_of_pos_right _ (Nat.mul_pos hside hside)
    rw [Nat.mul_comm]
    omega
  refine ⟨_, Torus.ofSides_eq_ok hcolumns hrows hprograms, ?_⟩
  intro program hprogram dx hdx dy hdy
  refine ⟨?_, ?_, cellOf_tile hside hdx hdy⟩
  · rw [h.width_eq, Nat.mul_comm side, Nat.mul_comm side]
    exact Size.place_lt (Nat.mod_lt _ hcolumns) hdx
  · rw [h.height_eq, Nat.mul_comm side, Nat.mul_comm side]
    exact Size.place_lt (Nat.div_lt_of_lt_mul hprogram) hdy

/-- Whatever is rendered shows every cell once in its place, and every world whose tapes are
squares is rendered. -/
theorem render_shows_each_cell_once :
    (∀ (cells : Array UInt32) (tapeLength gridWidth gridHeight : Nat) (f : Frame),
      render cells tapeLength gridWidth gridHeight = .ok f →
        ∃ side, 0 < side ∧ side * side = tapeLength ∧
          f.Tiles cells side gridWidth gridHeight) ∧
    ∀ w : World, w.Reachable → ∀ side, side * side = w.config.tapeLength →
      ∃ f, render w.store.snapshot w.store.tapeLength w.torus.width w.torus.height = .ok f := by
  constructor
  · intro cells tapeLength gridWidth gridHeight f h
    obtain ⟨side, hside, hsquare, hcells, hfits, hshows⟩ := shows_of_render h
    exact ⟨side, hside, hsquare, hshows.tiles hside hcells hfits⟩
  · intro w hw side hsquare
    obtain ⟨-, -, f, hf, -⟩ := World.render_ok hw hsquare
    exact ⟨f, hf⟩

/-- A buffer of 24 different values. -/
def numbered : Array UInt32 := ((List.range 24).map UInt32.ofNat).toArray

/-- Six tapes of four cells, in two rows: the frame has six columns and four rows, and its
last pixel shows the last cell of the last tape.  A world of this shape is rendered. -/
theorem render_shows_each_cell_once_threeByTwo :
    (∃ f, render numbered 4 3 2 = .ok f ∧ f.width = 6 ∧ f.height = 4 ∧
      f.pixel 5 3 = .ok (Color.ofCell 23)) ∧
    ∃ w f, World.ofConfig ⟨4, 3, 2, .persistent, none⟩ = .ok w ∧
      render w.store.snapshot w.store.tapeLength w.torus.width w.torus.height = .ok f := by
  constructor
  · have hroot : tapeSide (2 * 2) = .ok (some 2) := tapeSide_eq_some (by decide)
    have hsize : numbered.size = 2 * 3 * (2 * 2) := rfl
    obtain ⟨f, hf, -⟩ :=
      render_shows hroot (by decide) (by decide) (by decide) hsize (by decide)
    obtain ⟨side, -, hsquare, htiles⟩ := render_shows_each_cell_once.1 _ _ _ _ _ hf
    obtain rfl : side = 2 := Nat.mul_self_inj.1 hsquare
    have hwidth : f.width = 6 := htiles.width_eq
    have hheight : f.height = 4 := htiles.height_eq
    obtain ⟨value, hvalue, hpixel⟩ := htiles.pixel_eq 5 (by omega) 3 (by omega)
    have hlast : numbered[cellOf 2 (2 * 2) 3 5 3]? = some 23 := by decide
    obtain rfl : value = 23 := Option.some.inj (hvalue.symm.trans hlast)
    exact ⟨f, hf, hwidth, hheight, hpixel⟩
  · have hsimulatable : Config.Simulatable ⟨4, 3, 2, .persistent, none⟩ := by
      constructor <;> decide
    have hcells : Config.CellsExist ⟨4, 3, 2, .persistent, none⟩ := by
      unfold Config.CellsExist
      decide
    have hregisters : Config.RegistersExist ⟨4, 3, 2, .persistent, none⟩ := by
      unfold Config.RegistersExist
      decide
    obtain ⟨w, hw, hbuilt⟩ := World.ofConfig_eq_ok hsimulatable hcells hregisters
    have hlength : 2 * 2 = w.config.tapeLength := by rw [hbuilt.config_eq]
    obtain ⟨f, hf⟩ := render_shows_each_cell_once.2 w (.ofConfig hw) 2 hlength
    exact ⟨w, f, hw, hf⟩

/-! ## Buffers that are not rendered -/

/-- The buffer is a world of whole square tapes, in exact numbers. -/
def Renderable (count tapeLength gridWidth gridHeight : Nat) : Prop :=
  (∃ side, 0 < side ∧ side * side = tapeLength) ∧ count = tapeLength * gridWidth * gridHeight

/-- A product that is taken on the way is no size: the area of the rounded root of the tape
length, the cells of a row of tapes or of all of them, or the rows of an image that has no
columns. -/
inductive Overflows (count tapeLength gridWidth gridHeight : Nat) : Prop where
  | root (h : rootLimit ≤ tapeLength)
  | row {side : Nat} (hside : 0 < side) (hsquare : side * side = tapeLength)
      (h : Size.limit ≤ tapeLength * gridWidth)
  | grid {side : Nat} (hside : 0 < side) (hsquare : side * side = tapeLength)
      (h : Size.limit ≤ tapeLength * gridWidth * gridHeight)
  | height {side : Nat} (hside : 0 < side) (hsquare : side * side = tapeLength)
      (hcount : count = 0) (hcolumns : gridWidth = 0) (h : Size.limit ≤ side * gridHeight)

private theorem not_overflows {count : Nat} (hroot : tapeLength < rootLimit)
    (hcolumns : 0 < gridWidth)
    (hrow : tapeLength * gridWidth < Size.limit)
    (hgrid : tapeLength * gridWidth * gridHeight < Size.limit) :
    ¬Overflows count tapeLength gridWidth gridHeight := by
  intro h
  cases h with
  | root h => omega
  | row _ _ h => omega
  | grid _ _ h => omega
  | height _ _ _ hzero _ => omega

/-- What becomes of a buffer: it is rendered or refused as it should be, but only if no
product overflows. -/
structure RenderOutcome (x : Except Error Frame) (renderable overflows : Prop) : Prop where
  ok_iff : (∃ f, x = .ok f) ↔ renderable ∧ ¬overflows
  refused_iff : (∃ cause, x = .error (.config cause)) ↔ ¬renderable ∧ ¬overflows
  fault_iff : x = .error (.fault .overflow) ↔ overflows

theorem RenderOutcome.of_cases {x : Except Error Frame} {renderable overflows : Prop}
    (hfault : overflows → x = .error (.fault .overflow))
    (hok : ¬overflows → renderable → ∃ f, x = .ok f)
    (hrefused : ¬overflows → ¬renderable → ∃ cause, x = .error (.config cause)) :
    RenderOutcome x renderable overflows := by
  by_cases hoverflows : overflows
  · obtain rfl := hfault hoverflows
    constructor <;> simp [hoverflows]
  · by_cases hrenderable : renderable
    · obtain ⟨f, rfl⟩ := hok hoverflows hrenderable
      constructor <;> simp [hoverflows, hrenderable]
    · obtain ⟨cause, rfl⟩ := hrefused hoverflows hrenderable
      constructor <;> simp [hoverflows, hrenderable]

private theorem render_eq_overflow (h : Overflows cells.size tapeLength gridWidth gridHeight) :
    render cells tapeLength gridWidth gridHeight = .error (.fault .overflow) := by
  by_cases hroot : rootLimit ≤ tapeLength
  · rw [render, tapeSide_eq_overflow hroot]
    rfl
  · have hfits : tapeLength < Size.limit := Nat.lt_trans (Nat.lt_of_not_le hroot) (by decide)
    unfold render
    cases h with
    | root h => exact absurd h hroot
    | row hside hsquare h =>
      subst hsquare
      simp only [tapeSide_eq_some hfits, Fault.lift_ok, ok_bind, Option.getD_some,
        Error.require_eq_ok hside, Size.mul_eq_error (Nat.not_lt.2 h)]
      rfl
    | @grid side hside hsquare h =>
      subst hsquare
      simp only [tapeSide_eq_some hfits, Fault.lift_ok, ok_bind, Option.getD_some,
        Error.require_eq_ok hside]
      by_cases hrow : side * side * gridWidth < Size.limit
      · rw [Size.mul_eq_ok hrow, Fault.lift_ok, ok_bind, Size.mul_eq_error (Nat.not_lt.2 h)]
        rfl
      · rw [Size.mul_eq_error hrow]
        rfl
    | height hside hsquare hcount hcolumns h =>
      subst hsquare hcolumns
      have hzero : ∀ n, Size.mul n 0 = .ok 0 := fun n => Size.mul_eq_ok (Nat.succ_pos _)
      have hzero' : Size.mul 0 gridHeight = .ok 0 := by
        rw [Size.mul_eq_ok_iff, Nat.zero_mul]
        decide
      simp only [tapeSide_eq_some hfits, Fault.lift_ok, ok_bind, Option.getD_some,
        Error.require_eq_ok hside, hzero, hzero', Error.require_eq_ok hcount,
        Size.mul_eq_error (Nat.not_lt.2 h)]
      rfl

private theorem render_eq_ok (hcells : cells.size * Store.cellBytes ≤ Size.tableLimit)
    (hfits : ¬Overflows cells.size tapeLength gridWidth gridHeight)
    (h : Renderable cells.size tapeLength gridWidth gridHeight) :
    ∃ f, render cells tapeLength gridWidth gridHeight = .ok f := by
  obtain ⟨⟨side, hside, rfl⟩, hcount⟩ := h
  have hroot : side * side < rootLimit :=
    Nat.lt_of_not_le fun hle => hfits (.root hle)
  have hrow : side * side * gridWidth < Size.limit :=
    Nat.lt_of_not_le fun hle => hfits (.row hside rfl hle)
  have hwidth : side * gridWidth < Size.limit := by
    apply Nat.lt_of_le_of_lt _ hrow
    exact Nat.mul_le_mul_right _ (Nat.le_mul_self side)
  have hheight : side * gridHeight < Size.limit := by
    apply Nat.lt_of_not_le
    intro hle
    rcases Nat.eq_zero_or_pos gridWidth with hzero | hpos
    · apply hfits
      refine .height hside rfl ?_ hzero hle
      rw [hcount, hzero, Nat.mul_zero, Nat.zero_mul]
    · apply hfits
      refine .grid hside rfl (Nat.le_trans hle ?_)
      apply Nat.mul_le_mul_right
      calc side ≤ side * side := Nat.le_mul_self side
        _ ≤ side * side * gridWidth := Nat.le_mul_of_pos_right _ hpos
  have hsize : cells.size = gridHeight * gridWidth * (side * side) := by
    rw [hcount]
    ring
  have hbytes : cells.size * 3 < Size.limit := by
    simp only [Store.cellBytes, Size.tableLimit, Size.limit] at *
    omega
  obtain ⟨f, hf, -⟩ := render_of_sizes (tapeSide_eq_some (Nat.lt_trans hroot (by decide))) hside
    hsize hbytes hrow hwidth hheight
  exact ⟨f, hf⟩

private theorem tapeSide_of_not_square (h : tapeLength < rootLimit)
    (hsquare : ¬∃ side, 0 < side ∧ side * side = tapeLength) :
    ∃ root, tapeSide tapeLength = .ok root ∧ root.getD 0 = 0 := by
  rcases Nat.eq_zero_or_pos tapeLength with rfl | hpos
  · have hzero : tapeSide (0 * 0) = .ok (some 0) := tapeSide_eq_some (Nat.succ_pos _)
    exact ⟨some 0, hzero, rfl⟩
  · refine ⟨none, tapeSide_eq_none h ?_, rfl⟩
    intro side hside
    apply hsquare
    refine ⟨side, ?_, hside⟩
    apply Nat.pos_of_ne_zero
    rintro rfl
    omega

private theorem render_eq_refused (hfits : ¬Overflows cells.size tapeLength gridWidth gridHeight)
    (h : ¬Renderable cells.size tapeLength gridWidth gridHeight) :
    ∃ cause, render cells tapeLength gridWidth gridHeight = .error (.config cause) := by
  have hroot : tapeLength < rootLimit := Nat.lt_of_not_le fun hle => hfits (.root hle)
  by_cases hsquare : ∃ side, 0 < side ∧ side * side = tapeLength
  · obtain ⟨side, hside, rfl⟩ := hsquare
    have hrow : side * side * gridWidth < Size.limit :=
      Nat.lt_of_not_le fun hle => hfits (.row hside rfl hle)
    have hgrid : side * side * gridWidth * gridHeight < Size.limit :=
      Nat.lt_of_not_le fun hle => hfits (.grid hside rfl hle)
    have hcount : cells.size ≠ side * side * gridWidth * gridHeight := by
      intro hcount
      exact h ⟨⟨side, hside, rfl⟩, hcount⟩
    unfold render
    simp only [tapeSide_eq_some (Nat.lt_trans hroot (by decide)), Fault.lift_ok, ok_bind,
      Option.getD_some, Error.require_eq_ok hside, Size.mul_eq_ok hrow, Size.mul_eq_ok hgrid,
      Error.require_eq_error hcount]
    exact ⟨_, rfl⟩
  · obtain ⟨root, hside, hzero⟩ := tapeSide_of_not_square hroot hsquare
    rw [render, hside, Fault.lift_ok, ok_bind, hzero]
    exact ⟨.notSquare tapeLength, rfl⟩

/-- Whatever the sizes are, a buffer is rendered if it is a world of whole square tapes and
refused if it is not, unless a product on the way is no size; then it is neither. -/
theorem render_outcome (cells : Array UInt32) (tapeLength gridWidth gridHeight : Nat)
    (hcells : cells.size * Store.cellBytes ≤ Size.tableLimit) :
    RenderOutcome (render cells tapeLength gridWidth gridHeight)
      (Renderable cells.size tapeLength gridWidth gridHeight)
      (Overflows cells.size tapeLength gridWidth gridHeight) := by
  apply RenderOutcome.of_cases
  · exact render_eq_overflow
  · exact render_eq_ok hcells
  · exact render_eq_refused

/-- As six tapes of four cells a buffer is rendered; as three of them it is refused, and so are
tapes of six cells.  An image of no columns and `2 ^ 64` rows has no cells, but it is a fault. -/
theorem render_outcome_numbered :
    (∃ f, render numbered 4 3 2 = .ok f) ∧
    (∃ cause, render numbered 4 3 1 = .error (.config cause)) ∧
    (∃ cause, render numbered 6 2 2 = .error (.config cause)) ∧
    Renderable 0 4 0 (2 ^ 63) ∧ render #[] 4 0 (2 ^ 63) = .error (.fault .overflow) := by
  have hbytes : numbered.size * Store.cellBytes ≤ Size.tableLimit := by decide
  refine ⟨?_, ?_, ?_, ?_, ?_⟩
  · apply (render_outcome numbered 4 3 2 hbytes).ok_iff.2
    refine ⟨?_, not_overflows (by decide) (by decide) (by decide) (by decide)⟩
    exact ⟨⟨2, by decide, rfl⟩, rfl⟩
  · apply (render_outcome numbered 4 3 1 hbytes).refused_iff.2
    refine ⟨?_, not_overflows (by decide) (by decide) (by decide) (by decide)⟩
    rintro ⟨-, hcount⟩
    exact absurd hcount (by decide)
  · apply (render_outcome numbered 6 2 2 hbytes).refused_iff.2
    refine ⟨?_, not_overflows (by decide) (by decide) (by decide) (by decide)⟩
    rintro ⟨⟨side, -, hsquare⟩, -⟩
    have hlow : 2 < side := Nat.mul_self_lt_mul_self_iff.1 (by omega)
    have hhigh : side < 3 := Nat.mul_self_lt_mul_self_iff.1 (by omega)
    omega
  · exact ⟨⟨2, by decide, rfl⟩, rfl⟩
  · apply (render_outcome #[] 4 0 (2 ^ 63) (by decide)).fault_iff.2
    exact .height (show 0 < 2 by decide) rfl rfl rfl (by decide)

/-- A row of `2 ^ 62` tapes of four cells: no buffer holds them, but not even the empty one is
refused.  The low 64 bits of the number of cells alone would be that of the empty buffer. -/
theorem render_overflow_not_refused :
    ¬Renderable 0 4 (2 ^ 62) 1 ∧
    ¬(∃ cause, render #[] 4 (2 ^ 62) 1 = .error (.config cause)) ∧
    render #[] 4 (2 ^ 62) 1 = .error (.fault .overflow) ∧
    4 * 2 ^ 62 * 1 % 2 ^ 64 = 0 := by
  have hfault : render #[] 4 (2 ^ 62) 1 = .error (.fault .overflow) :=
    render_eq_overflow (.row (show 0 < 2 by decide) rfl (by decide))
  rw [hfault]
  refine ⟨?_, ?_, rfl, by decide⟩
  · rintro ⟨-, hcount⟩
    cases hcount
  · rintro ⟨cause, h⟩
    cases h

end Frame
end TapeTorus
