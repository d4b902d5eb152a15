import Mathlib.Logic.Function.Iterate
import TapeTorus.Seeder

/-!
# Drops

All that is random about fresh tapes is two streams of one generator: first a byte for each
cell, then the drops, each of which is a place on a tape and a symbol.  The drops on a tape
are consecutive, and so are the tapes.  Once the streams are given, dropping is overwriting.
-/

namespace TapeTorus

variable {σ : Type} (G : Generator σ)

namespace Generator

/-- The next `n` bytes. -/
def bytes : (n : Nat) → σ → List UInt8
  | 0, _ => []
  | n + 1, g => (G.byte g).1 :: bytes n (G.byte g).2

/-- The state after `n` bytes. -/
def afterBytes (n : Nat) (g : σ) : σ := (fun g => (G.byte g).2)^[n] g

@[simp] theorem length_bytes (n : Nat) (g : σ) : (G.bytes n g).length = n := by
  induction n generalizing g with
  | zero => rfl
  | succ n ih => rw [bytes, List.length_cons, ih]

end Generator

namespace Seeder

/-! ## Draws -/

/-- A symbol, and the place on a tape where it is dropped. -/
structure Draw where
  offset : Nat
  symbol : UInt8

variable {symbols : Array UInt8} {tapeLength start stop : Nat} {cells : Array UInt32}

/-- The next draw, and the state after it: first the place, then the symbol. -/
def draw (symbols : Array UInt8) (tapeLength : Nat) (g : σ) : Draw × σ :=
  let (offset, g) := G.below tapeLength g
  let (choice, g) := G.below symbols.size g
  (⟨offset, symbols.getD choice 0⟩, g)

/-- The next `n` draws. -/
def draws (symbols : Array UInt8) (tapeLength : Nat) : (n : Nat) → σ → List Draw
  | 0, _ => []
  | n + 1, g =>
    (draw G symbols tapeLength g).1 :: draws symbols tapeLength n (draw G symbols tapeLength g).2

/-- The state after `n` draws. -/
def afterDraws (symbols : Array UInt8) (tapeLength n : Nat) (g : σ) : σ :=
  (fun g => (draw G symbols tapeLength g).2)^[n] g

private theorem afterDraws_add (m n : Nat) (g : σ) :
    afterDraws G symbols tapeLength (m + n) g =
      afterDraws G symbols tapeLength m (afterDraws G symbols tapeLength n g) :=
  Function.iterate_add_apply _ m n g

@[simp] theorem length_draws (n : Nat) (g : σ) :
    (draws G symbols tapeLength n g).length = n := by
  induction n generalizing g with
  | zero => rfl
  | succ n ih => rw [draws, List.length_cons, ih]

/-- The draw falls on the tape, and is one of the symbols. -/
def Draw.Inside (symbols : Array UInt8) (tapeLength : Nat) (d : Draw) : Prop :=
  d.offset < tapeLength ∧ d.symbol ∈ symbols

private theorem draw_eq (hsymbols : 0 < symbols.size) (hlength : 0 < tapeLength) (g : σ) :
    ∃ offset g₁ choice g₂, G.below tapeLength g = (offset, g₁) ∧
      G.below symbols.size g₁ = (choice, g₂) ∧ offset < tapeLength ∧
      ∃ hchoice : choice < symbols.size,
        draw G symbols tapeLength g = (⟨offset, symbols[choice]⟩, g₂) := by
  obtain ⟨⟨offset, g₁⟩, hfirst⟩ : ∃ draw, G.below tapeLength g = draw := ⟨_, rfl⟩
  obtain ⟨⟨choice, g₂⟩, hsecond⟩ : ∃ draw, G.below symbols.size g₁ = draw := ⟨_, rfl⟩
  have hoffset : offset < tapeLength := by simpa [hfirst] using G.below_lt hlength g
  have hchoice : choice < symbols.size := by
    simpa [hsecond] using G.below_lt hsymbols g₁
  refine ⟨offset, g₁, choice, g₂, hfirst, hsecond, hoffset, hchoice, ?_⟩
  unfold draw
  simp only [hfirst, hsecond]
  simp [hchoice]

private theorem draw_inside (hsymbols : 0 < symbols.size) (hlength : 0 < tapeLength) (g : σ) :
    (draw G symbols tapeLength g).1.Inside symbols tapeLength := by
  obtain ⟨offset, g₁, choice, g₂, -, -, hoffset, hchoice, hdraw⟩ := draw_eq G hsymbols hlength g
  rw [hdraw]
  exact ⟨hoffset, Array.getElem_mem hchoice⟩

theorem draws_inside (hsymbols : 0 < symbols.size) (hlength : 0 < tapeLength) (n : Nat)
    (g : σ) : ∀ d ∈ draws G symbols tapeLength n g, d.Inside symbols tapeLength := by
  induction n generalizing g with
  | zero => simp [draws]
  | succ n ih =>
    intro d hd
    rcases List.mem_cons.1 hd with rfl | hrest
    · exact draw_inside G hsymbols hlength g
    · exact ih _ d hrest

/-! ## Overwriting -/

/-- The cells after symbols have been put on the tape that begins at `start`. -/
def overwrite (start : Nat) (cells : Array UInt32) (ds : List Draw) : Array UInt32 :=
  ds.foldl (fun cells d => cells.setIfInBounds (start + d.offset) d.symbol.toUInt32) cells

@[simp] theorem size_overwrite (start : Nat) (cells : Array UInt32) (ds : List Draw) :
    (overwrite start cells ds).size = cells.size := by
  induction ds generalizing cells with
  | nil => rfl
  | cons d ds ih =>
    unfold overwrite at ih ⊢
    rw [List.foldl_cons, ih, Array.size_setIfInBounds]

private theorem extract_setIfInBounds_inside {i : Nat} (value : UInt32) (h : start + i < stop) :
    (cells.setIfInBounds (start + i) value).extract start stop =
      (cells.extract start stop).setIfInBounds i value := by
  apply Array.ext_getElem?
  intro k
  simp only [Array.getElem?_extract, Array.getElem?_setIfInBounds, Array.size_setIfInBounds,
    Array.size_extract, Nat.add_left_cancel_iff]
  by_cases hk : i = k
  · subst hk
    by_cases hi : start + i < cells.size
    · have hinside : i < min stop cells.size - start := by omega
      simp only [hinside, hi, if_true]
    · have houtside : ¬i < min stop cells.size - start := by omega
      simp only [houtside, if_false, if_true]
  · simp only [hk, if_false]

private theorem extract_setIfInBounds_outside {i : Nat} (value : UInt32)
    (h : i < start ∨ stop ≤ i) :
    (cells.setIfInBounds i value).extract start stop = cells.extract start stop := by
  apply Array.ext_getElem?
  intro k
  simp only [Array.getElem?_extract, Array.getElem?_setIfInBounds, Array.size_setIfInBounds]
  by_cases hk : k < min stop cells.size - start
  · have hne : i ≠ start + k := by omega
    rw [if_neg hne]
  · rw [if_neg hk, if_neg hk]

private theorem extract_overwrite {ds : List Draw} (h : ∀ d ∈ ds, start + d.offset < stop) :
    (overwrite start cells ds).extract start stop =
      overwrite 0 (cells.extract start stop) ds := by
  induction ds generalizing cells with
  | nil => rfl
  | cons d ds ih =>
    rw [List.forall_mem_cons] at h
    unfold overwrite at ih ⊢
    rw [List.foldl_cons, List.foldl_cons, ih h.2, Nat.zero_add,
      extract_setIfInBounds_inside _ h.1]

private theorem extract_overwrite_other {ds : List Draw} {first : Nat}
    (h : ∀ d ∈ ds, first + d.offset < start ∨ stop ≤ first + d.offset) :
    (overwrite first cells ds).extract start stop = cells.extract start stop := by
  induction ds generalizing cells with
  | nil => rfl
  | cons d ds ih =>
    rw [List.forall_mem_cons] at h
    unfold overwrite at ih ⊢
    rw [List.foldl_cons, ih h.2, extract_setIfInBounds_outside _ h.1]

/-! ## Dropping -/

private theorem drop_eq (hsymbols : 0 < symbols.size) (hlength : 0 < tapeLength)
    (hcells : start + tapeLength ≤ cells.size) (g : σ) :
    drop G symbols tapeLength start g cells = .ok ((draw G symbols tapeLength g).2,
      overwrite start cells [(draw G symbols tapeLength g).1]) := by
  obtain ⟨offset, g₁, choice, g₂, hfirst, hsecond, hoffset, hchoice, hdraw⟩ :=
    draw_eq G hsymbols hlength g
  have hinside : start + offset < cells.size := by omega
  rw [hdraw]
  unfold drop
  simp only [hfirst, hsecond]
  rw [dif_pos ⟨hchoice, hinside⟩, overwrite, List.foldl_cons, Array.setIfInBounds,
    dif_pos hinside]
  rfl

private theorem dropOnTape_eq (hsymbols : 0 < symbols.size) (hlength : 0 < tapeLength)
    (hcells : start + tapeLength ≤ cells.size) (count : Nat) (g : σ) :
    dropOnTape G symbols tapeLength start count g cells =
      .ok (afterDraws G symbols tapeLength count g,
        overwrite start cells (draws G symbols tapeLength count g)) := by
  induction count generalizing g cells with
  | zero => rfl
  | succ count ih =>
    rw [dropOnTape, drop_eq G hsymbols hlength hcells g, ok_bind]
    dsimp only
    rw [ih (by rwa [size_overwrite])]
    rfl

/-- What drops on `count` tapes from `start` on make of the cells: each tape is overwritten with
its own draws, and those of the tapes before it come first. -/
structure Dropped (symbols : Array UInt8) (tapeLength perTape count start : Nat) (g : σ)
    (cells cells' : Array UInt32) : Prop where
  size_eq : cells'.size = cells.size
  before_eq : ∀ first stop, stop ≤ start → cells'.extract first stop = cells.extract first stop
  tape_eq : ∀ k < count,
    cells'.extract (start + k * tapeLength) (start + k * tapeLength + tapeLength) =
      overwrite 0 (cells.extract (start + k * tapeLength) (start + k * tapeLength + tapeLength))
        (draws G symbols tapeLength perTape (afterDraws G symbols tapeLength (k * perTape) g))

private theorem dropOnTapes_eq (hsymbols : 0 < symbols.size) (hlength : 0 < tapeLength)
    (perTape count : Nat) (g : σ)
    (hcells : start + count * tapeLength ≤ cells.size) :
    ∃ cells', dropOnTapes G symbols tapeLength perTape count start g cells =
        .ok (afterDraws G symbols tapeLength (count * perTape) g, cells') ∧
      Dropped G symbols tapeLength perTape count start g cells cells' := by
  induction count generalizing start g cells with
  | zero =>
    rw [Nat.zero_mul]
    exact ⟨cells, rfl, rfl, fun _ _ _ => rfl, nofun⟩
  | succ count ih =>
    rw [Nat.succ_mul] at hcells
    have hown := draws_inside G hsymbols hlength perTape g
    obtain ⟨cells', hrest, hdropped⟩ := @ih (start + tapeLength)
      (overwrite start cells (draws G symbols tapeLength perTape g))
      (afterDraws G symbols tapeLength perTape g) (by rw [size_overwrite]; omega)
    refine ⟨cells', ?_, ?_, ?_, ?_⟩
    · rw [dropOnTapes, dropOnTape_eq G hsymbols hlength (by omega), ok_bind]
      dsimp only
      rw [hrest, Nat.succ_mul, afterDraws_add]
    · rw [hdropped.size_eq, size_overwrite]
    · intro first stop hstop
      rw [hdropped.before_eq first stop (by omega)]
      apply extract_overwrite_other
      intro d _
      omega
    · intro k hk
      cases k with
      | zero =>
        simp only [Nat.zero_mul, Nat.add_zero]
        rw [hdropped.before_eq _ _ (Nat.le_refl _), extract_overwrite]
        · rfl
        · intro d hd
          exact Nat.add_lt_add_left (hown d hd).1 start
      | succ k =>
        have hplace : start + (k + 1) * tapeLength = start + tapeLength + k * tapeLength := by
          rw [Nat.succ_mul]
          omega
        rw [hplace, hdropped.tape_eq k (by omega), extract_overwrite_other, Nat.succ_mul,
          afterDraws_add]
        intro d hd
        have hoffset := (hown d hd).1
        omega

/-! ## Filling -/

private theorem randomBytes_eq (count : Nat) (g : σ) (cells : Array UInt32) :
    randomBytes G count g cells =
      (G.afterBytes count g, cells ++ ((G.bytes count g).map UInt8.toUInt32).toArray) := by
  induction count generalizing g cells with
  | zero => simp [randomBytes, Generator.bytes, Generator.afterBytes]
  | succ count ih =>
    have hstep : randomBytes G (count + 1) g cells =
        randomBytes G count (G.byte g).2 (cells.push (G.byte g).1.toUInt32) := rfl
    rw [hstep, ih, Generator.bytes, List.map_cons]
    refine Prod.ext rfl ?_
    simp

/-- The random bytes from which all cells start. -/
def raw (total : Nat) (seed : UInt64) : Array UInt32 :=
  ((G.bytes total (G.ofSeed seed)).map UInt8.toUInt32).toArray

@[simp] theorem size_raw (total : Nat) (seed : UInt64) : (raw G total seed).size = total := by
  simp [raw]

/-- How many symbols are dropped on each tape. -/
def perTape (d : Seeder) (tapeLength : Nat) : Nat := d.drops.getD tapeLength

/-- The draws on the tape of a program: they follow those on the tapes before it, and all of
them follow the bytes. -/
def drawsOn (d : Seeder) (tapeLength programs : Nat) (seed : UInt64) (p : Nat) : List Draw :=
  if d.symbols.size = 0 ∨ tapeLength = 0 then []
  else draws G d.symbols tapeLength (d.perTape tapeLength)
    (afterDraws G d.symbols tapeLength (p * d.perTape tapeLength)
      (G.afterBytes (tapeLength * programs) (G.ofSeed seed)))

/-- The tape of a program. -/
def tape (cells : Array UInt32) (tapeLength p : Nat) : Array UInt32 :=
  cells.extract (p * tapeLength) (p * tapeLength + tapeLength)

theorem tape_getElem? {p o : Nat} (ho : o < tapeLength) :
    (tape cells tapeLength p)[o]? = cells[p * tapeLength + o]? := by
  rw [tape, Array.getElem?_extract]
  by_cases hi : p * tapeLength + o < cells.size
  · rw [if_pos (by omega)]
  · rw [if_neg (by omega), Array.getElem?_eq_none (by omega)]

/-- The cells that a seeder fills tapes with. -/
structure Fills (d : Seeder) (tapeLength programs : Nat) (seed : UInt64) (cells : Array UInt32) :
    Prop where
  size_eq : cells.size = tapeLength * programs
  tape_eq : ∀ p < programs, tape cells tapeLength p =
    overwrite 0 (tape (raw G (tapeLength * programs) seed) tapeLength p)
      (d.drawsOn G tapeLength programs seed p)
  eq_raw : d.symbols.size = 0 ∨ tapeLength = 0 → cells = raw G (tapeLength * programs) seed

private theorem fills_raw {d : Seeder} (h : d.symbols.size = 0 ∨ tapeLength = 0) (programs : Nat)
    (seed : UInt64) : d.Fills G tapeLength programs seed (raw G (tapeLength * programs) seed) := by
  refine ⟨size_raw _ _ _, ?_, fun _ => rfl⟩
  intro p _
  rw [drawsOn, if_pos h]
  rfl

/-- If the number of cells is a size, the only thing that filling can want is memory. -/
theorem fill_eq (d : Seeder) {programs : Nat} (hfits : tapeLength * programs < Size.limit)
    (seed : UInt64) :
    ∃ cells, d.fill G tapeLength programs seed =
        (Size.table (tapeLength * programs) Store.cellBytes).map (fun _ => cells) ∧
      d.Fills G tapeLength programs seed cells := by
  by_cases h : d.symbols.size = 0 ∨ tapeLength = 0
  · refine ⟨_, ?_, fills_raw G h programs seed⟩
    rw [fill, Size.mul_eq_ok hfits, ok_bind, randomBytes_eq, Array.empty_append]
    simp only [if_pos h]
    cases Size.table (tapeLength * programs) Store.cellBytes <;> rfl
  · have hsymbols : 0 < d.symbols.size := by omega
    have hlength : 0 < tapeLength := by omega
    have hcells : 0 + programs * tapeLength ≤ (raw G (tapeLength * programs) seed).size := by
      rw [size_raw, Nat.zero_add]
      exact Nat.le_of_eq (Nat.mul_comm _ _)
    obtain ⟨cells, hdrop, hdropped⟩ := dropOnTapes_eq G hsymbols hlength (d.perTape tapeLength)
      programs (G.afterBytes (tapeLength * programs) (G.ofSeed seed)) hcells
    refine ⟨cells, ?_, ?_, ?_, fun hraw => absurd hraw h⟩
    · rw [fill, Size.mul_eq_ok hfits, ok_bind, randomBytes_eq, Array.empty_append]
      unfold perTape raw at hdrop
      simp only [if_neg h, hdrop]
      cases Size.table (tapeLength * programs) Store.cellBytes <;> rfl
    · rw [hdropped.size_eq, size_raw]
    · intro p hp
      have htape := hdropped.tape_eq p hp
      rw [Nat.zero_add] at htape
      rw [drawsOn, if_neg h]
      exact htape

end Seeder
end TapeTorus
