import Mathlib.Data.List.Induction
import Mathlib.Data.List.Perm.Subperm
import TapeTorus.Proofs.Seeding

/-!
# What drops change

Of several symbols that are dropped on one cell the last one stays.  A tape differs from its
random bytes in no more cells than symbols were dropped on it, and where it does, it holds
one of them.
-/

namespace TapeTorus.Seeder

variable {symbols : Array UInt8} {before : Array UInt32} {ds : List Draw}

/-- The symbol of the last draw on a place. -/
def lastOn (ds : List Draw) (o : Nat) : Option UInt8 :=
  (ds.reverse.find? (·.offset = o)).map Draw.symbol

private theorem lastOn_append (ds : List Draw) (d : Draw) (o : Nat) :
    lastOn (ds ++ [d]) o = if d.offset = o then some d.symbol else lastOn ds o := by
  rw [lastOn, List.reverse_append, List.reverse_singleton, List.singleton_append, List.find?_cons]
  by_cases h : d.offset = o
  · simp [h]
  · simp [h, lastOn]

private theorem exists_of_lastOn {o : Nat} {s : UInt8} (h : lastOn ds o = some s) :
    ∃ d ∈ ds, d.offset = o ∧ d.symbol = s := by
  obtain ⟨d, hd, rfl⟩ := Option.map_eq_some_iff.1 h
  refine ⟨d, List.mem_reverse.1 (List.mem_of_find?_eq_some hd), ?_, rfl⟩
  simpa using List.find?_some hd

private theorem overwrite_getElem? (before : Array UInt32) (ds : List Draw) (o : Nat) :
    (overwrite 0 before ds)[o]? =
      before[o]?.map fun old => ((lastOn ds o).map UInt8.toUInt32).getD old := by
  induction ds using List.reverseRecOn with
  | nil => simp [overwrite, lastOn]
  | append_singleton ds d ih =>
    have hlast : overwrite 0 before (ds ++ [d]) =
        (overwrite 0 before ds).setIfInBounds d.offset d.symbol.toUInt32 := by
      rw [overwrite, List.foldl_append, List.foldl_cons, Nat.zero_add]
      rfl
    rw [hlast, Array.getElem?_setIfInBounds, lastOn_append, size_overwrite]
    by_cases ho : d.offset = o
    · subst ho
      rw [if_pos rfl, if_pos rfl]
      by_cases hinside : d.offset < before.size
      · rw [if_pos hinside, Array.getElem?_eq_getElem hinside]
        rfl
      · rw [if_neg hinside, Array.getElem?_eq_none (Nat.le_of_not_lt hinside)]
        rfl
    · rw [if_neg ho, if_neg ho, ih]

private theorem exists_draw_of_changed {o : Nat} (h : (overwrite 0 before ds)[o]? ≠ before[o]?) :
    ∃ d ∈ ds, d.offset = o ∧ (overwrite 0 before ds)[o]? = some d.symbol.toUInt32 := by
  rw [overwrite_getElem?] at h ⊢
  cases hold : before[o]? with
  | none =>
    rw [hold] at h
    exact absurd rfl h
  | some old =>
    cases hlast : lastOn ds o with
    | none =>
      rw [hold, hlast] at h
      exact absurd rfl h
    | some s =>
      obtain ⟨d, hd, hoffset, rfl⟩ := exists_of_lastOn hlast
      exact ⟨d, hd, hoffset, rfl⟩

private theorem countP_changed_le (before : Array UInt32) (ds : List Draw) (n : Nat) :
    (List.range n).countP (fun o => (overwrite 0 before ds)[o]? ≠ before[o]?) ≤ ds.length := by
  have hdrawn : (List.range n).filter (fun o => (overwrite 0 before ds)[o]? ≠ before[o]?) ⊆
      ds.map Draw.offset := by
    intro o ho
    have hchanged := (List.mem_filter.1 ho).2
    obtain ⟨d, hd, hoffset, -⟩ := exists_draw_of_changed (of_decide_eq_true hchanged)
    exact List.mem_map.2 ⟨d, hd, hoffset⟩
  have hnodup : ((List.range n).filter fun o =>
      (overwrite 0 before ds)[o]? ≠ before[o]?).Nodup := List.nodup_range.filter _
  calc (List.range n).countP (fun o => (overwrite 0 before ds)[o]? ≠ before[o]?)
      = ((List.range n).filter fun o => (overwrite 0 before ds)[o]? ≠ before[o]?).length :=
        List.countP_eq_length_filter
    _ ≤ (ds.map Draw.offset).length := (hnodup.subperm hdrawn).length_le
    _ = ds.length := List.length_map _

/-- A tape after at most `count` symbols were dropped on it: the last one on each cell stays,
and all other cells are as they were. -/
structure Overwritten (symbols : Array UInt8) (count : Nat) (ds : List Draw)
    (before after : Array UInt32) : Prop where
  eq_overwrite : after = overwrite 0 before ds
  inside : ∀ d ∈ ds, d.Inside symbols before.size
  cell_eq : ∀ o : Nat, after[o]? =
    before[o]?.map fun old => ((lastOn ds o).map UInt8.toUInt32).getD old
  changed_le : (List.range before.size).countP (fun o => after[o]? ≠ before[o]?) ≤ count
  changed_symbol : ∀ o : Nat, after[o]? ≠ before[o]? →
    ∃ s ∈ symbols, after[o]? = some s.toUInt32

private theorem overwritten {count : Nat} (hinside : ∀ d ∈ ds, d.Inside symbols before.size)
    (hcount : ds.length ≤ count) : Overwritten symbols count ds before (overwrite 0 before ds) where
  eq_overwrite := rfl
  inside := hinside
  cell_eq := overwrite_getElem? before ds
  changed_le := Nat.le_trans (countP_changed_le before ds _) hcount
  changed_symbol := by
    intro o h
    obtain ⟨d, hd, -, hvalue⟩ := exists_draw_of_changed h
    exact ⟨d.symbol, (hinside d hd).2, hvalue⟩

variable {σ : Type} {G : Generator σ} {d : Seeder} {tapeLength programs : Nat} {seed : UInt64}

private theorem length_drawsOn (p : Nat) : (d.drawsOn G tapeLength programs seed p).length =
    if d.symbols.size = 0 ∨ tapeLength = 0 then 0 else d.perTape tapeLength := by
  unfold drawsOn
  by_cases h : d.symbols.size = 0 ∨ tapeLength = 0
  · rw [if_pos h, if_pos h]
    rfl
  · rw [if_neg h, if_neg h, length_draws]

private theorem drawsOn_inside (p : Nat) :
    ∀ draw ∈ d.drawsOn G tapeLength programs seed p, draw.Inside d.symbols tapeLength := by
  unfold drawsOn
  by_cases h : d.symbols.size = 0 ∨ tapeLength = 0
  · rw [if_pos h]
    simp
  · rw [if_neg h]
    exact draws_inside G (by omega) (by omega) _ _

private theorem size_tape_raw {p : Nat} (hp : p < programs) :
    (tape (raw G (tapeLength * programs) seed) tapeLength p).size = tapeLength := by
  have hend : p * tapeLength + tapeLength ≤ tapeLength * programs := by
    rw [← Nat.succ_mul, Nat.mul_comm tapeLength]
    exact Nat.mul_le_mul_right _ hp
  rw [tape, Array.size_extract, size_raw]
  omega

/-- Filling drops symbols on random bytes and does nothing else.  Without symbols the cells are
the bytes of the generator; with them, each tape is overwritten with draws of its own, equally
many for each tape and one tape after the other, all of them behind the bytes.  Nothing outside
a table is asked for: the only fault is a table that memory cannot hold. -/
theorem fill_overwrites_raw (G : Generator σ) (d : Seeder) (tapeLength programs : Nat)
    (seed : UInt64)
    (hfits : tapeLength * programs < Size.limit) :
    ({ d with symbols := #[] } : Seeder).fill G tapeLength programs seed =
      (Size.table (tapeLength * programs) Store.cellBytes).map
        (fun _ => raw G (tapeLength * programs) seed) ∧
    ∃ cells, d.fill G tapeLength programs seed =
        (Size.table (tapeLength * programs) Store.cellBytes).map (fun _ => cells) ∧
      cells.size = tapeLength * programs ∧ Bytes cells ∧
      (∀ p < programs,
        (d.drawsOn G tapeLength programs seed p).length =
          (if d.symbols.size = 0 ∨ tapeLength = 0 then 0 else d.perTape tapeLength) ∧
        Overwritten d.symbols (d.perTape tapeLength) (d.drawsOn G tapeLength programs seed p)
          (tape (raw G (tapeLength * programs) seed) tapeLength p) (tape cells tapeLength p)) ∧
      (d.symbols.size = 0 ∨ tapeLength = 0 → cells = raw G (tapeLength * programs) seed) := by
  obtain ⟨before, hbefore, hraw⟩ :=
    fill_eq G { d with symbols := #[] } hfits seed
  obtain ⟨cells, hfill, hcells⟩ := d.fill_eq G hfits seed
  refine ⟨?_, cells, hfill, hcells.size_eq, hcells.bytes, ?_, hcells.eq_raw⟩
  · rw [hbefore, hraw.eq_raw (.inl rfl)]
  · intro p hp
    refine ⟨length_drawsOn p, ?_⟩
    rw [hcells.tape_eq p hp]
    apply overwritten
    · rw [size_tape_raw hp]
      exact drawsOn_inside p
    · rw [length_drawsOn]
      split
      · exact Nat.zero_le _
      · exact Nat.le_refl _

/-- Three drops of one symbol on each of two tapes: at most three cells of the second tape
change, and these hold the symbol. -/
theorem fill_overwrites_raw_twoTapes :
    ∃ cells, (⟨#[43], some 3⟩ : Seeder).fill xoshiro 4 2 7 = .ok cells ∧ cells.size = 8 ∧
      (List.range 4).countP (fun o => (tape cells 4 1)[o]? ≠ (tape (raw xoshiro 8 7) 4 1)[o]?) ≤ 3 ∧
      ∀ o : Nat, (tape cells 4 1)[o]? ≠ (tape (raw xoshiro 8 7) 4 1)[o]? →
        (tape cells 4 1)[o]? = some 43 := by
  obtain ⟨-, cells, hfill, hsize, -, htapes, -⟩ :=
    fill_overwrites_raw xoshiro ⟨#[43], some 3⟩ 4 2 7 (by decide)
  obtain ⟨-, hoverwritten⟩ := htapes 1 (by decide)
  have hlength : (tape (raw xoshiro (4 * 2) 7) 4 1).size = 4 := size_tape_raw (by decide)
  have hchanged := hoverwritten.changed_le
  rw [hlength] at hchanged
  refine ⟨cells, hfill, hsize, hchanged, ?_⟩
  intro o ho
  obtain ⟨s, hs, hvalue⟩ := hoverwritten.changed_symbol o ho
  obtain rfl : s = 43 := by simpa using hs
  exact hvalue

end TapeTorus.Seeder
