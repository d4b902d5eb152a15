import Mathlib.Algebra.BigOperators.Group.List.Lemmas
import TapeTorus.Metrics
import TapeTorus.Proofs.Layout

/-!
# What counts as code

A cell is drawn in colour, is listed under a symbol and is counted as an instruction under
one and the same condition on its byte.  So the picture, the listings, the histogram and
the density of a reachable world agree on how many of its cells hold code, though each of
them goes over the cells in its own way.
-/

namespace TapeTorus

/-! ## One cell -/

namespace Color

/-- The channels are not all equal. -/
def Colored (c : Color) : Prop := ¬(c.red = c.green ∧ c.green = c.blue)

instance (c : Color) : Decidable c.Colored := inferInstanceAs (Decidable (¬_))

private theorem colored_ofInstruction (i : Instruction) : (ofInstruction i).Colored := by
  cases i <;> decide

private theorem not_colored_grey (value : Nat) : ¬(grey value).Colored := by
  simp [Colored, grey]

theorem colored_ofCell (b : UInt8) : (ofCell b.toUInt32).Colored ↔ Instruction.isCode b := by
  have hbyte : b.toUInt32.toNat < 256 := by simpa using b.toNat_lt
  rw [ofCell, if_pos hbyte, UInt8.toUInt8_toUInt32, Instruction.isCode]
  cases Instruction.ofByte? b with
  | none => simp [not_colored_grey]
  | some i => simp [colored_ofInstruction]

end Color

namespace Instruction

theorem listing_ne_underscore (b : UInt8) : listing b ≠ '_' ↔ isCode b := by
  rw [listing, isCode]
  cases ofByte? b with
  | none => simp
  | some i => simp [symbol_ne_underscore]

private theorem mem_bytes {b : UInt8} : b ∈ bytes ↔ isCode b := by
  constructor
  · intro h
    obtain ⟨i, -, rfl⟩ := List.mem_map.1 h
    rw [isCode, ofByte?_toByte]
    rfl
  · intro h
    obtain ⟨i, hi⟩ := Option.isSome_iff_exists.1 h
    have hall : i ∈ all := by cases i <;> decide
    exact List.mem_map.2 ⟨i, hall, toByte_of_ofByte? hi⟩

private theorem nodup_bytes : bytes.Nodup := by decide

/-- How many characters of a listing stand for instructions. -/
def marks (text : String) : Nat := text.toList.countP (· ≠ '_')

private theorem marks_disassemble (tape : List UInt8) :
    marks (disassemble tape) = tape.countP isCode := by
  rw [marks, disassemble, String.toList_ofList, List.countP_map]
  apply List.countP_congr
  intro b _
  simpa using listing_ne_underscore b

end Instruction

/-! ## Counts over a population -/

namespace Metrics

private theorem getD_foldl_modify (l : List UInt8) (counts : Array Nat) (hsize : counts.size = 256)
    (b : UInt8) :
    (l.foldl (fun counts b => counts.modify b.toNat (· + 1)) counts).getD b.toNat 0 =
      counts.getD b.toNat 0 + l.count b := by
  induction l generalizing counts with
  | nil => rfl
  | cons a l ih =>
    have hb : b.toNat < counts.size := hsize ▸ b.toNat_lt
    have hstep : (counts.modify a.toNat (· + 1)).getD b.toNat 0 =
        counts.getD b.toNat 0 + if a == b then 1 else 0 := by
      rw [Array.getD_eq_getD_getElem?, Array.getD_eq_getD_getElem?, Array.getElem?_modify,
        Array.getElem?_eq_getElem hb]
      by_cases hab : a = b
      · simp [hab]
      · have hne : a.toNat ≠ b.toNat := fun h => hab (UInt8.toNat_inj.1 h)
        simp [hab, hne]
    rw [List.foldl_cons, ih _ (by rw [Array.size_modify, hsize]), hstep, List.count_cons]
    omega

/-- The histogram counts every byte value. -/
theorem histogram_getD (population : Array UInt8) (b : UInt8) :
    (histogram population).getD b.toNat 0 = population.toList.count b := by
  have hzero : (Array.replicate 256 0).getD b.toNat 0 = 0 := by
    rw [Array.getD_eq_getD_getElem?, Array.getElem?_replicate]
    split <;> rfl
  rw [histogram, ← Array.foldl_toList,
    getD_foldl_modify _ _ Array.size_replicate b, hzero, Nat.zero_add]

private theorem sum_map_beq (bytes : List UInt8) (b : UInt8) :
    (bytes.map fun a => if b == a then 1 else 0).sum = bytes.count b := by
  induction bytes with
  | nil => rfl
  | cons a bytes ih =>
    rw [List.map_cons, List.sum_cons, ih, List.count_cons, Nat.add_comm, Bool.beq_comm]

/-- Different bytes are counted one by one or at once. -/
theorem sum_count {bytes : List UInt8} (hbytes : bytes.Nodup) (l : List UInt8) :
    (bytes.map fun b => l.count b).sum = l.countP (· ∈ bytes) := by
  induction l with
  | nil => simp
  | cons b l ih =>
    simp only [List.count_cons, List.sum_map_add, ih, List.countP_cons, sum_map_beq,
      hbytes.count, decide_eq_true_eq]

private theorem sum_histogram_bytes (population : Array UInt8) :
    (Instruction.bytes.map fun b => (histogram population).getD b.toNat 0).sum =
      codeCount population := by
  simp only [histogram_getD]
  rw [sum_count Instruction.nodup_bytes, codeCount, ← Array.countP_toList]
  apply List.countP_congr
  intro b _
  simpa using Instruction.mem_bytes

end Metrics

/-! ## Tapes of a store -/

private theorem range_mul (m n : Nat) :
    List.range (m * n) = (List.range m).flatMap fun p => (List.range n).map fun o => p * n + o := by
  induction m with
  | zero => simp
  | succ m ih => rw [Nat.succ_mul, List.range_add, ih, List.range_succ, List.flatMap_append,
      List.flatMap_singleton]

namespace Store

theorem cells_eq_tapes (s : Store) :
    s.cells.toList =
      (List.range s.programs).flatMap fun p => (List.range s.tapeLength).map (s.cell p) := by
  have hcells : s.cells.toList = (List.range s.cells.size).map fun i => s.cells.getD i 0 := by
    apply List.ext_getElem
    · simp
    · intro i hi _
      have hsize : i < s.cells.size := hi
      simp [hsize]
  rw [hcells, s.size_eq, range_mul, List.map_flatMap]
  simp only [List.map_map]
  rfl

theorem tapes_eq_ok (s : Store) :
    s.tapes = .ok ((List.range s.programs).map fun p =>
      (List.range s.tapeLength).map (s.cell p)) :=
  mapM_eq_ok fun _ hp => s.programBytes_eq_ok (List.mem_range.1 hp)

theorem cells_ne_empty (s : Store) : s.cells.size ≠ 0 := by
  rw [s.size_eq]
  exact Nat.ne_of_gt (Nat.mul_pos s.programs_pos s.tapeLength_pos)

/-- The listings of all tapes, in the order of the programs. -/
def listings (s : Store) : List String :=
  (List.range s.programs).map fun p =>
    Instruction.disassemble ((List.range s.tapeLength).map (s.cell p))

private theorem sum_marks_listings (s : Store) :
    (s.listings.map Instruction.marks).sum = Metrics.codeCount s.cells := by
  rw [Metrics.codeCount, ← Array.countP_toList, s.cells_eq_tapes, List.countP_flatMap, listings,
    List.map_map]
  simp only [Function.comp_def, Instruction.marks_disassemble]

variable {s : Store} {program offset : Nat}

private theorem listings_getElem? (hp : program < s.programs) (ho : offset < s.tapeLength) :
    ∃ text, s.listings[program]? = some text ∧
      text.toList[offset]? = some (Instruction.listing (s.cell program offset)) := by
  refine ⟨Instruction.disassemble ((List.range s.tapeLength).map (s.cell program)), ?_, ?_⟩
  · rw [listings, List.getElem?_map, List.getElem?_range hp]
    rfl
  · rw [Instruction.disassemble, String.toList_ofList, List.getElem?_map, List.getElem?_map,
      List.getElem?_range ho]
    rfl

theorem snapshot_getElem? (hp : program < s.programs) (ho : offset < s.tapeLength) :
    s.snapshot[program * s.tapeLength + offset]? = some (s.cell program offset).toUInt32 := by
  have hslot : program * s.tapeLength + offset < s.cells.size := by
    rw [s.size_eq]
    exact s.slot_lt hp ho
  simp [snapshot, cell, hslot]

private theorem countP_snapshot (s : Store) :
    s.snapshot.countP (fun value => (Color.ofCell value).Colored) = Metrics.codeCount s.cells := by
  rw [snapshot, Metrics.codeCount, Array.countP_map]
  apply Array.countP_congr
  intro b _
  simpa using Color.colored_ofCell b

end Store

/-! ## Pixels of a frame -/

namespace Frame

/-- The pixels whose channels are not all equal. -/
def coloredPixels (f : Frame) : Nat :=
  f.places.countP fun place =>
    match f.pixel place.1 place.2 with
    | .ok c => c.Colored
    | .error _ => false

private theorem countP_range_getElem? {α : Type} (cells : Array α) (p : α → Bool) :
    (List.range cells.size).countP (fun i => cells[i]?.any p) = cells.countP p := by
  have hcells : (List.range cells.size).map (fun i => cells[i]?) = cells.toList.map some := by
    apply List.ext_getElem
    · simp
    · intro i hi _
      have hsize : i < cells.size := by simpa using hi
      simp [hsize]
  have hcount : (List.range cells.size).countP (fun i => cells[i]?.any p) =
      ((List.range cells.size).map fun i => cells[i]?).countP (Option.any p) := by
    rw [List.countP_map]
    rfl
  rw [hcount, hcells, List.countP_map, ← Array.countP_toList]
  rfl

private theorem Shows.coloredPixels_eq {f : Frame} {cells : Array UInt32}
    {side gridWidth gridHeight : Nat} (h : f.Shows cells side gridWidth gridHeight)
    (hside : 0 < side) (hcells : cells.size = gridHeight * gridWidth * (side * side)) :
    f.coloredPixels = cells.countP fun value => (Color.ofCell value).Colored := by
  rw [← countP_range_getElem?, ← (h.cells_perm hside hcells).countP_eq, List.countP_map,
    coloredPixels]
  apply List.countP_congr
  intro place hplace
  obtain ⟨hx, hy⟩ := mem_places.1 hplace
  obtain ⟨value, hvalue, hpixel⟩ := h.pixel_eq _ hx _ hy
  rw [Function.comp_apply, hpixel, hvalue]
  rfl

end Frame

namespace World

private theorem disassemble_eq_ok (w : World) : w.disassemble = .ok w.store.listings := by
  rw [disassemble, w.store.tapes_eq_ok, ok_bind, List.map_map]
  rfl

/-- The frame of a reachable world whose tapes are squares has a pixel for every cell.  A
pixel has unequal channels exactly if the listing of its cell is not an underscore, and that
is exactly if the cell holds an instruction.  So the pixels with unequal channels, the other
characters than underscores in the listings of all programs, the instructions in the
histogram and the cells that the density counts are equally many. -/
theorem picture_listing_metrics_agree {w : World} (h : w.Reachable) {side : Nat}
    (hside : side * side = w.config.tapeLength) :
    ∃ f texts,
      Frame.render w.store.snapshot w.store.tapeLength w.torus.width w.torus.height = .ok f ∧
      w.disassemble = .ok texts ∧
      (∀ program < w.torus.size, ∀ offset < w.config.tapeLength, ∃ x < f.width, ∃ y < f.height,
        Frame.cellOf side w.config.tapeLength w.torus.width x y =
          program * w.config.tapeLength + offset) ∧
      (∀ x < f.width, ∀ y < f.height, ∀ program, ∀ offset < w.config.tapeLength,
        Frame.cellOf side w.config.tapeLength w.torus.width x y =
          program * w.config.tapeLength + offset →
        ∃ color text symbol, f.pixel x y = .ok color ∧ texts[program]? = some text ∧
          text.toList[offset]? = some symbol ∧
          (color.Colored ↔ symbol ≠ '_') ∧
          (symbol ≠ '_' ↔ Instruction.isCode (w.store.cell program offset))) ∧
      f.coloredPixels = Metrics.codeCount w.store.populationBytes ∧
      (texts.map Instruction.marks).sum = Metrics.codeCount w.store.populationBytes ∧
      (Instruction.bytes.map fun b =>
          (Metrics.histogram w.store.populationBytes).getD b.toNat 0).sum =
        Metrics.codeCount w.store.populationBytes ∧
      Metrics.codeDensity w.store.populationBytes =
        .ofQuotient (Metrics.codeCount w.store.populationBytes)
          (w.torus.size * w.config.tapeLength) := by
  have hsound := h.sound
  obtain ⟨hpos, hsize, f, hrender, hshows⟩ := render_ok h hside
  have hdensity : w.store.populationBytes.size = w.torus.size * w.config.tapeLength := by
    rw [Store.populationBytes, w.store.size_eq, hsound.programs_eq, hsound.tapeLength_eq]
  refine ⟨f, w.store.listings, hrender, disassemble_eq_ok w, ?_, ?_, ?_,
    w.store.sum_marks_listings, Metrics.sum_histogram_bytes _, ?_⟩
  · intro program hprogram offset hoffset
    rw [← hside] at hoffset ⊢
    refine ⟨_, ?_, _, ?_, Frame.cellOf_column_row hpos hoffset⟩
    · rw [hshows.width_eq]
      exact Frame.column_lt hpos w.torus.width_pos
    · rw [hshows.height_eq]
      exact Frame.row_lt hprogram hoffset
  · intro x hx y hy program offset hoffset hcell
    obtain ⟨value, hvalue, hpixel⟩ := hshows.pixel_eq x hx y hy
    rw [hshows.width_eq] at hx
    rw [hshows.height_eq] at hy
    rw [← hside] at hoffset hcell
    have hprogram : program < w.store.programs := by
      rw [hsound.programs_eq, Torus.size, Nat.mul_comm w.torus.width]
      exact Frame.program_lt hpos hx hy hoffset hcell
    rw [hside, ← hsound.tapeLength_eq] at hoffset
    rw [hcell, hside, ← hsound.tapeLength_eq, Store.snapshot_getElem? hprogram hoffset,
      Option.some.injEq] at hvalue
    obtain ⟨text, htext, hsymbol⟩ := Store.listings_getElem? hprogram hoffset
    have hcode := Instruction.listing_ne_underscore (w.store.cell program offset)
    refine ⟨_, text, _, hpixel, htext, hsymbol, ?_, hcode⟩
    rw [← hvalue, Color.colored_ofCell, hcode]
  · rw [hshows.coloredPixels_eq hpos hsize]
    exact w.store.countP_snapshot
  · have hcells : w.store.populationBytes.size ≠ 0 := w.store.cells_ne_empty
    rw [Metrics.codeDensity, if_neg hcells, hdensity]

/-- Two programs of four cells each. -/
def painted : World where
  config := ⟨4, 2, 1, .persistent, none⟩
  torus := .couple
  store := ⟨4, 2, #[91, 0, 62, 200, 0, 43, 1, 93], Nat.succ_pos 3, Nat.two_pos, rfl, by decide⟩
  bank := ⟨4, #[.start, .start]⟩
  ticks := 0

/-- Four of the eight cells hold instructions. -/
theorem picture_listing_metrics_agree_painted :
    painted.Reachable ∧ 2 * 2 = painted.config.tapeLength ∧
    ∃ f, Frame.render painted.store.snapshot 4 2 1 = .ok f ∧ f.coloredPixels = 4 ∧
      painted.disassemble = .ok ["[_>_", "_+_]"] ∧
      Metrics.codeDensity painted.store.populationBytes = .ofQuotient 4 8 := by
  have hbytes : (#[91, 0, 62, 200, 0, 43, 1, 93] : Array UInt32).map UInt32.toUInt8 =
      #[91, 0, 62, 200, 0, 43, 1, 93] := by simp
  have hbuilt : ofBuffers painted.config #[91, 0, 62, 200, 0, 43, 1, 93] none = .ok painted := by
    simp only [ofBuffers, Store.ofCells, Store.writeCells, hbytes]
    rfl
  have hreachable : painted.Reachable := .ofBuffers hbuilt
  obtain ⟨f, texts, hrender, htexts, -, -, hpixels, -, -, hdensity⟩ :=
    @picture_listing_metrics_agree painted hreachable 2 rfl
  exact ⟨hreachable, rfl, f, hrender, hpixels, rfl, hdensity⟩

end World
end TapeTorus
