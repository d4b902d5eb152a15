import Mathlib.Logic.Equiv.Fin.Basic
import TapeTorus.Proofs.CodeCounts
import TapeTorus.Proofs.Slots

/-!
# Tapes as a table of bytes

A store is a table with a row for each program and a column for each position on a tape.  Every
cell has a slot of its own, so that a write changes no other cell: each cell gives back what was
written to it last.  Whichever way the store is read, cell by cell, tape by tape, as a population
or as a snapshot, the same bytes are found, and the snapshot makes the same store again.
-/

namespace TapeTorus

namespace Store

variable {s : Store} {tapeLength programs : Nat} {byte : Nat → Nat → UInt8}

/-! ## Slots of cells -/

/-- The slot of each cell, and the cell of each slot. -/
def slotEquiv (s : Store) : Fin s.programs × Fin s.tapeLength ≃ Fin s.size :=
  finProdFinEquiv.trans (finCongr s.size_eq.symm)

private theorem cellIndex_eq_slotEquiv (s : Store) (p : Fin s.programs) (o : Fin s.tapeLength) :
    s.cellIndex p o = .ok (s.slotEquiv (p, o)).val := by
  have hslot : (s.slotEquiv (p, o)).val = o.val + s.tapeLength * p.val := rfl
  rw [s.cellIndex_eq_ok p.isLt o.isLt, hslot, Nat.add_comm, Nat.mul_comm]

/-! ## The last write on a cell -/

/-- The value of the last write on a cell. -/
def lastOn (writes : List Write) (p o : Nat) : Option UInt8 :=
  (writes.reverse.find? fun w => p = w.program ∧ o = w.offset).map Write.value

private theorem lastOn_cons (w : Write) (writes : List Write) (p o : Nat) :
    lastOn (w :: writes) p o =
      (lastOn writes p o).or (if p = w.program ∧ o = w.offset then some w.value else none) := by
  rw [lastOn, List.reverse_cons, List.find?_append, Option.map_or, List.find?_singleton]
  by_cases h : p = w.program ∧ o = w.offset
  · simp [h, lastOn]
  · simp [h, lastOn]

/-- Writes inside the store leave every cell with the value of the last write on it, or with
what it held before. -/
theorem writeAll_ok {writes : List Write}
    (h : ∀ w ∈ writes, w.program < s.programs ∧ w.offset < s.tapeLength) :
    ∃ t, s.writeAll writes = .ok t ∧ t.SameShape s ∧
      ∀ p, ∀ o < s.tapeLength, t.cell p o = (lastOn writes p o).getD (s.cell p o) := by
  induction writes generalizing s with
  | nil => exact ⟨s, rfl, .refl s, fun _ _ _ => rfl⟩
  | cons w writes ih =>
    obtain ⟨⟨hp, ho⟩, hrest⟩ := List.forall_mem_cons.1 h
    have hshape := s.update_sameShape w.program w.offset w.value
    obtain ⟨t, ht, htshape, hcell⟩ := ih (s := s.update w.program w.offset w.value) hrest
    refine ⟨t, ?_, htshape.trans hshape, ?_⟩
    · rw [writeAll, List.foldlM_cons, s.write_eq_ok w.value hp ho]
      exact ht
    · intro p o ho'
      rw [hcell p o ho', s.cell_update w.value hp ho ho', lastOn_cons]
      cases lastOn writes p o with
      | some value => rfl
      | none => by_cases hw : p = w.program ∧ o = w.offset <;> simp [hw]

/-! ## Ways to read -/

/-- Whichever way the store is read, it holds the given bytes. -/
structure ReadsAs (s : Store) (tapeLength programs : Nat) (byte : Nat → Nat → UInt8) : Prop where
  tapeLength_eq : s.tapeLength = tapeLength
  programs_eq : s.programs = programs
  load_eq : ∀ p < programs, ∀ o < tapeLength, s.load p o = .ok (byte p o)
  programBytes_eq : ∀ p < programs, s.programBytes p = .ok ((List.range tapeLength).map (byte p))
  populationBytes_eq : ∃ tapes, s.tapes = .ok tapes ∧ s.populationBytes.toList = tapes.flatten
  snapshot_eq : s.snapshot = s.populationBytes.map UInt8.toUInt32
  snapshot_getElem? : ∀ p < programs, ∀ o < tapeLength,
    s.snapshot[p * tapeLength + o]? = some (byte p o).toUInt32
  restored : ofCells tapeLength s.snapshot = .ok s

private theorem ofCells_snapshot (s : Store) : ofCells s.tapeLength s.snapshot = .ok s := by
  obtain ⟨t, ht, hlength, hprograms, hcells⟩ :=
    ofCells_eq_ok s.tapeLength_pos s.programs_pos s.size_snapshot s.fits
  rw [← s.cells_eq_of_snapshot] at hcells
  rw [ht, SameShape.eq_of_cells ⟨hlength, hprograms⟩ hcells]

private theorem readsAs (hlength : s.tapeLength = tapeLength) (hprograms : s.programs = programs)
    (hcell : ∀ p < programs, ∀ o < tapeLength, s.cell p o = byte p o) :
    s.ReadsAs tapeLength programs byte := by
  subst hlength hprograms
  constructor
  · rfl
  · rfl
  · intro p hp o ho
    rw [s.load_eq_ok hp ho, hcell p hp o ho]
  · intro p hp
    rw [s.programBytes_eq_ok hp]
    exact congrArg Except.ok (List.map_congr_left fun o ho => hcell p hp o (List.mem_range.1 ho))
  · refine ⟨_, s.tapes_eq_ok, ?_⟩
    rw [populationBytes, s.cells_eq_tapes, List.flatMap_def]
  · rfl
  · intro p hp o ho
    rw [s.snapshot_getElem? hp ho, hcell p hp o ho]
  · exact s.ofCells_snapshot

/-! ## Tables -/

/-- The store has a slot for each cell of a table and no others, and after any writes to its
cells it holds the last one on each, or else the given byte. -/
structure IsTable (s : Store) (tapeLength programs : Nat) (byte : Nat → Nat → UInt8) : Prop where
  slots_bijective : ∃ slot : Fin programs × Fin tapeLength ≃ Fin s.size,
    ∀ (p : Fin programs) (o : Fin tapeLength), s.cellIndex p o = .ok (slot (p, o)).val
  reads_last : ∀ writes : List Write,
    (∀ w ∈ writes, w.program < programs ∧ w.offset < tapeLength) →
    ∃ t, s.writeAll writes = .ok t ∧
      t.ReadsAs tapeLength programs fun p o => (lastOn writes p o).getD (byte p o)

private theorem isTable (hlength : s.tapeLength = tapeLength) (hprograms : s.programs = programs)
    (hcell : ∀ p < programs, ∀ o < tapeLength, s.cell p o = byte p o) :
    s.IsTable tapeLength programs byte := by
  subst hlength hprograms
  constructor
  · exact ⟨s.slotEquiv, s.cellIndex_eq_slotEquiv⟩
  · intro writes hwrites
    obtain ⟨t, ht, hshape, hlast⟩ := writeAll_ok hwrites
    refine ⟨t, ht, readsAs hshape.tapeLength_eq hshape.programs_eq ?_⟩
    intro p hp o ho
    rw [hlast p o ho, hcell p hp o ho]

/-! ## What is accepted -/

private theorem zeroed_eq_refused
    (h : ¬(0 < tapeLength ∧ 0 < programs ∧ programs * tapeLength < Size.limit)) :
    ∃ cause, zeroed tapeLength programs = .error (.config cause) := by
  by_cases hpos : 0 < tapeLength ∧ 0 < programs
  · have hlimit : ¬programs * tapeLength < Size.limit := fun hlimit => h ⟨hpos.1, hpos.2, hlimit⟩
    rw [zeroed, dif_pos hpos, if_neg hlimit]
    exact ⟨_, rfl⟩
  · rw [zeroed, dif_neg hpos]
    exact ⟨_, rfl⟩

private theorem zeroed_decides (tapeLength programs : Nat) :
    Error.Decides (zeroed tapeLength programs)
      (0 < tapeLength ∧ 0 < programs ∧ programs * tapeLength < Size.limit)
      (programs * tapeLength * cellBytes ≤ Size.tableLimit)
      (·.IsTable tapeLength programs fun _ _ => 0) := by
  apply Error.Decides.of_cases
  · rintro ⟨hlength, hprograms, -⟩ hfits
    obtain ⟨s, hs, hslength, hsprograms, hcells⟩ := zeroed_eq_ok hlength hprograms hfits
    refine ⟨s, hs, isTable hslength hsprograms ?_⟩
    intro p hp o ho
    have hplace : p * tapeLength + o < programs * tapeLength := Size.place_lt hp ho
    simp [cell, hslength, hcells, hplace]
  · rintro ⟨hlength, hprograms, hlimit⟩ hfits
    exact zeroed_eq_error hlength hprograms hlimit hfits
  · exact zeroed_eq_refused

/-- The low byte of the value that a buffer has for a cell. -/
def byteOf (buffer : Array UInt32) (tapeLength p o : Nat) : UInt8 :=
  (buffer.getD (p * tapeLength + o) 0).toUInt8

/-- A buffer of one tape or several, none of which is cut off. -/
structure WholeTapes (buffer : Array UInt32) (tapeLength : Nat) : Prop where
  tapeLength_pos : 0 < tapeLength
  size_pos : 0 < buffer.size
  dvd_size : tapeLength ∣ buffer.size
  size_lt : buffer.size < Size.limit

variable {buffer : Array UInt32}

theorem WholeTapes.programs_pos (h : WholeTapes buffer tapeLength) :
    0 < buffer.size / tapeLength :=
  Nat.div_pos (Nat.le_of_dvd h.size_pos h.dvd_size) h.tapeLength_pos

private theorem WholeTapes.programs_mul (h : WholeTapes buffer tapeLength) :
    buffer.size / tapeLength * tapeLength = buffer.size := Nat.div_mul_cancel h.dvd_size

private theorem ofCells_of_not_ragged (h : tapeLength ≠ 0 ∧ buffer.size % tapeLength = 0) :
    ofCells tapeLength buffer =
      zeroed tapeLength (buffer.size / tapeLength) >>= (·.writeCells buffer) := by
  rw [ofCells, Error.require_eq_ok h]
  rfl

private theorem ofCells_eq_refused (h : ¬WholeTapes buffer tapeLength) :
    ∃ cause, ofCells tapeLength buffer = .error (.config cause) := by
  by_cases hragged : tapeLength ≠ 0 ∧ buffer.size % tapeLength = 0
  · have hdvd : tapeLength ∣ buffer.size := Nat.dvd_of_mod_eq_zero hragged.2
    have hzeroed : ¬(0 < tapeLength ∧ 0 < buffer.size / tapeLength ∧
        buffer.size / tapeLength * tapeLength < Size.limit) := by
      rintro ⟨hlength, hprograms, hlimit⟩
      rw [Nat.div_mul_cancel hdvd] at hlimit
      exact h ⟨hlength, Nat.pos_of_div_pos hprograms, hdvd, hlimit⟩
    obtain ⟨cause, hcause⟩ := zeroed_eq_refused hzeroed
    rw [ofCells_of_not_ragged hragged, hcause]
    exact ⟨cause, rfl⟩
  · rw [ofCells, Error.require_eq_error hragged]
    exact ⟨_, rfl⟩

private theorem ofCells_eq_capacity (h : WholeTapes buffer tapeLength)
    (hfits : ¬buffer.size * cellBytes ≤ Size.tableLimit) :
    ofCells tapeLength buffer = .error (.fault .capacity) := by
  have hragged : tapeLength ≠ 0 ∧ buffer.size % tapeLength = 0 :=
    ⟨Nat.ne_of_gt h.tapeLength_pos, Nat.mod_eq_zero_of_dvd h.dvd_size⟩
  have hlimit := h.size_lt
  rw [← h.programs_mul] at hlimit hfits
  rw [ofCells_of_not_ragged hragged,
    zeroed_eq_error h.tapeLength_pos h.programs_pos hlimit hfits]
  rfl

private theorem ofCells_decides (tapeLength : Nat) (buffer : Array UInt32) :
    Error.Decides (ofCells tapeLength buffer) (WholeTapes buffer tapeLength)
      (buffer.size * cellBytes ≤ Size.tableLimit)
      (fun s => s.IsTable tapeLength (buffer.size / tapeLength) (byteOf buffer tapeLength) ∧
        s.snapshot = buffer.map (· % 256)) := by
  apply Error.Decides.of_cases
  · intro h hfits
    rw [← h.programs_mul] at hfits
    obtain ⟨s, hs, hlength, hprograms, hcells⟩ :=
      ofCells_eq_ok h.tapeLength_pos h.programs_pos h.programs_mul.symm hfits
    refine ⟨s, hs, isTable hlength hprograms ?_, snapshot_of_cells hcells⟩
    intro p hp o ho
    have hplace : p * tapeLength + o < buffer.size := h.programs_mul ▸ Size.place_lt hp ho
    simp [cell, byteOf, hlength, hcells, hplace]
  · exact ofCells_eq_capacity
  · exact ofCells_eq_refused

/-- A store that is made of zeros or of the low bytes of a buffer is a table of them.  Every cell
has its own slot, which is found without overflow, and every slot belongs to a cell.  Whatever has
been written to its cells, each of them gives back the value that was written to it last, or what
the store was made of; the population is all tapes, one after the other, the snapshot has the same
bytes cell by cell, and the same store can be made of it.  Just those sizes are accepted that are
positive and countable, and for which there is memory.  In slots of 32 bits all of this is the
same, though only the operations keep a slot to a byte. -/
theorem table_of_bytes (tapeLength : Nat) :
    (∀ programs,
      Error.Decides (zeroed tapeLength programs)
        (0 < tapeLength ∧ 0 < programs ∧ programs * tapeLength < Size.limit)
        (programs * tapeLength * cellBytes ≤ Size.tableLimit)
        (·.IsTable tapeLength programs fun _ _ => 0) ∧
      Slots.zeroed tapeLength programs = (zeroed tapeLength programs).map slots) ∧
    (∀ buffer : Array UInt32,
      Error.Decides (ofCells tapeLength buffer) (WholeTapes buffer tapeLength)
        (buffer.size * cellBytes ≤ Size.tableLimit)
        (fun s => s.IsTable tapeLength (buffer.size / tapeLength) (byteOf buffer tapeLength) ∧
          s.snapshot = buffer.map (· % 256)) ∧
      Slots.ofCells tapeLength buffer = (ofCells tapeLength buffer).map slots) ∧
    ∀ s : Store, s.slots.Holds s := by
  refine ⟨fun programs => ?_, fun buffer => ?_, holds_slots⟩
  · exact ⟨zeroed_decides tapeLength programs, Slots.zeroed_eq tapeLength programs⟩
  · exact ⟨ofCells_decides tapeLength buffer, Slots.ofCells_eq tapeLength buffer⟩

/-- Two tapes of two cells, one of which is written twice, and the last cell of the largest table
that there can be. -/
theorem table_of_bytes_largest :
    (∃ s, ofCells 2 #[0x1FF, 3, 256, 7] = .ok s ∧ s.snapshot = #[255, 3, 0, 7] ∧
      ∃ t, s.writeAll [⟨1, 0, 9⟩, ⟨0, 1, 5⟩, ⟨1, 0, 8⟩] = .ok t ∧
        t.load 0 0 = .ok 255 ∧ t.load 0 1 = .ok 5 ∧ t.load 1 0 = .ok 8 ∧ t.load 1 1 = .ok 7 ∧
        ofCells 2 t.snapshot = .ok t) ∧
    ∃ s, zeroed 1 0x1fff_ffff_ffff_ffff = .ok s ∧
      ∃ t, s.writeAll [⟨0x1fff_ffff_ffff_fffe, 0, 7⟩] = .ok t ∧
        t.load 0x1fff_ffff_ffff_fffe 0 = .ok 7 ∧ t.load 0 0 = .ok 0 := by
  constructor
  · have hwhole : WholeTapes #[0x1FF, 3, 256, 7] 2 := by constructor <;> decide
    obtain ⟨hdecides, -⟩ := (table_of_bytes 2).2.1 #[0x1FF, 3, 256, 7]
    obtain ⟨s, hs⟩ := hdecides.ok_iff.2 ⟨hwhole, by decide⟩
    obtain ⟨htable, hsnapshot⟩ := hdecides.result_of_ok s hs
    obtain ⟨t, ht, hreads⟩ :=
      htable.reads_last [⟨1, 0, 9⟩, ⟨0, 1, 5⟩, ⟨1, 0, 8⟩] (by decide)
    have hload := hreads.load_eq
    exact ⟨s, hs, hsnapshot.trans (by simp), t, ht, hload 0 (by decide) 0 (by decide),
      hload 0 (by decide) 1 (by decide), hload 1 (by decide) 0 (by decide),
      hload 1 (by decide) 1 (by decide), hreads.restored⟩
  · obtain ⟨hdecides, -⟩ := (table_of_bytes 1).1 0x1fff_ffff_ffff_ffff
    obtain ⟨s, hs⟩ := hdecides.ok_iff.2 ⟨by decide, by decide⟩
    obtain ⟨t, ht, hreads⟩ :=
      (hdecides.result_of_ok s hs).reads_last [⟨0x1fff_ffff_ffff_fffe, 0, 7⟩] (by decide)
    have hload := hreads.load_eq
    exact ⟨s, hs, t, ht, hload 0x1fff_ffff_ffff_fffe (by decide) 0 (by decide),
      hload 0 (by decide) 0 (by decide)⟩

end Store

end TapeTorus
