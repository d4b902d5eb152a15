import TapeTorus.Proofs.StepRange

/-!
# Slots

In memory a cell takes up a slot of 32 bits, of which the low byte counts.  Nothing but the
operations keeps the rest of a slot at zero: a buffer is cut to its low bytes when it is written,
a load takes the low byte of a slot, and a snapshot takes the slots as they are.  This suffices.
Slots that hold the bytes of a store answer as the store does, and do so after every operation
(`Store.holds_slots`), and whatever slots held before, they hold bytes once a buffer has been
written to them (`Slots.writeCells_bytes`).
-/

namespace TapeTorus

namespace Store

/-- A byte for a cell. -/
structure Write where
  program : Nat
  offset : Nat
  value : UInt8

/-- Makes one write after the other. -/
def writeAll (s : Store) (writes : List Write) : Except Fault Store :=
  writes.foldlM (fun s w => s.write w.program w.offset w.value) s

end Store

/-- The tapes of all programs in slots of 32 bits. -/
structure Slots where
  tapeLength : Nat
  programs : Nat
  words : Array UInt32

namespace Slots

def zeroed (tapeLength programs : Nat) : Except Error Slots := do
  Error.require (0 < tapeLength ∧ 0 < programs) (.emptyStore tapeLength programs)
  Error.require (tapeLength * programs < Size.limit) (.storeTooLarge programs tapeLength)
  Fault.lift (Size.table (tapeLength * programs) Store.cellBytes)
  return ⟨tapeLength, programs, Array.replicate (tapeLength * programs) 0⟩

def cellIndex (x : Slots) (program offset : Nat) : Except Fault Nat :=
  if program < x.programs ∧ offset < x.tapeLength then do
    let start ← Size.mul program x.tapeLength
    Size.add start offset
  else .error .outOfRange

def load (x : Slots) (program offset : Nat) : Except Fault UInt8 := do
  let i ← x.cellIndex program offset
  match x.words[i]? with
  | some word => .ok word.toUInt8
  | none => .error .outOfRange

def write (x : Slots) (program offset : Nat) (value : UInt8) : Except Fault Slots := do
  let i ← x.cellIndex program offset
  if i < x.words.size then .ok { x with words := x.words.setIfInBounds i value.toUInt32 }
  else .error .outOfRange

def writeAll (x : Slots) (writes : List Store.Write) : Except Fault Slots :=
  writes.foldlM (fun x w => x.write w.program w.offset w.value) x

/-- Puts the low byte of each value of a buffer into the slot at its place. -/
def writeCells (x : Slots) (buffer : Array UInt32) : Except Error Slots := do
  Error.require (buffer.size = x.words.size) (.cellCount x.words.size buffer.size)
  return { x with words := x.words.zipWith (fun _ value => value &&& 0xFF) buffer }

def ofCells (tapeLength : Nat) (buffer : Array UInt32) : Except Error Slots := do
  Error.require (tapeLength ≠ 0 ∧ buffer.size % tapeLength = 0)
    (.raggedCells buffer.size tapeLength)
  let x ← zeroed tapeLength (buffer.size / tapeLength)
  x.writeCells buffer

/-- The slots as they are, whatever they hold. -/
def snapshot (x : Slots) : Array UInt32 := x.words

def programBytes (x : Slots) (program : Nat) : Except Fault (List UInt8) :=
  (List.range x.tapeLength).mapM (x.load program)

def populationBytes (x : Slots) : Array UInt8 := x.words.map UInt32.toUInt8

end Slots

namespace Store

/-- The bytes of a store, each in a slot of its own. -/
def slots (s : Store) : Slots := ⟨s.tapeLength, s.programs, s.cells.map UInt8.toUInt32⟩

end Store

namespace Slots

/-- The slots answer as the store does, and still do after every operation. -/
structure Holds (x : Slots) (s : Store) : Prop where
  cellIndex_eq : ∀ program offset, x.cellIndex program offset = s.cellIndex program offset
  load_eq : ∀ program offset, x.load program offset = s.load program offset
  write_eq : ∀ program offset value,
    x.write program offset value = (s.write program offset value).map Store.slots
  writeAll_eq : ∀ writes, x.writeAll writes = (s.writeAll writes).map Store.slots
  writeCells_eq : ∀ buffer, x.writeCells buffer = (s.writeCells buffer).map Store.slots
  programBytes_eq : ∀ program, x.programBytes program = s.programBytes program
  populationBytes_eq : x.populationBytes = s.populationBytes
  snapshot_eq : x.snapshot = s.snapshot

theorem word_and_mask (word : UInt32) : word &&& 0xFF = word.toUInt8.toUInt32 := by
  apply UInt32.toNat_inj.1
  rw [UInt32.toNat_and, UInt8.toNat_toUInt32, UInt32.toNat_toUInt8]
  exact Nat.and_two_pow_sub_one_eq_mod word.toNat 8

/-- Every slot holds a byte. -/
def Bytes (x : Slots) : Prop := ∀ word ∈ x.words, word.toNat < 256

variable {x x' : Slots}

theorem writeCells_bytes {buffer : Array UInt32} (h : x.writeCells buffer = .ok x') :
    x'.Bytes := by
  unfold writeCells at h
  obtain ⟨_, -, hwords⟩ := bind_eq_ok_iff.1 h
  obtain rfl := Except.ok.inj hwords
  intro word hword
  obtain ⟨i, hi, rfl⟩ := Array.mem_iff_getElem.1 hword
  rw [Array.getElem_zipWith, word_and_mask, UInt8.toNat_toUInt32]
  exact UInt8.toNat_lt _

theorem Bytes.write {program offset : Nat} {value : UInt8} (hx : x.Bytes)
    (h : x.write program offset value = .ok x') : x'.Bytes := by
  unfold Slots.write at h
  obtain ⟨i, -, hwords⟩ := bind_eq_ok_iff.1 h
  split at hwords
  · obtain rfl := Except.ok.inj hwords
    intro word hword
    rcases Array.mem_or_eq_of_mem_setIfInBounds hword with hold | rfl
    · exact hx word hold
    · rw [UInt8.toNat_toUInt32]
      exact value.toNat_lt
  · cases hwords

theorem zeroed_eq (tapeLength programs : Nat) :
    zeroed tapeLength programs = (Store.zeroed tapeLength programs).map Store.slots := by
  by_cases hpos : 0 < tapeLength ∧ 0 < programs
  · rw [zeroed, Store.zeroed, Error.require_eq_ok hpos, ok_bind, dif_pos hpos,
      Nat.mul_comm tapeLength]
    by_cases hlimit : programs * tapeLength < Size.limit
    · rw [Error.require_eq_ok hlimit, ok_bind, if_pos hlimit]
      by_cases hfits : programs * tapeLength * Store.cellBytes ≤ Size.tableLimit
      · rw [Size.table_eq_ok hfits, dif_pos hfits, Except.map, Store.slots, Array.map_replicate]
        rfl
      · rw [Size.table, if_neg hfits, dif_neg hfits]
        rfl
    · rw [Error.require_eq_error hlimit, if_neg hlimit]
      rfl
  · rw [zeroed, Store.zeroed, Error.require_eq_error hpos, dif_neg hpos]
    rfl

end Slots

namespace Store

variable (s : Store)

theorem bytes_slots : s.slots.Bytes := by
  intro word hword
  obtain ⟨b, -, rfl⟩ := Array.mem_map.1 hword
  rw [UInt8.toNat_toUInt32]
  exact b.toNat_lt

theorem cells_eq_of_snapshot : s.cells = s.snapshot.map UInt32.toUInt8 := by
  have hbyte : UInt32.toUInt8 ∘ UInt8.toUInt32 = id := by
    funext b
    exact UInt8.toUInt8_toUInt32 b
  rw [snapshot, Array.map_map, hbyte, Array.map_id]

private theorem cellIndex_slots (program offset : Nat) :
    s.slots.cellIndex program offset = s.cellIndex program offset := rfl

private theorem load_slots (program offset : Nat) :
    s.slots.load program offset = s.load program offset := by
  rw [Slots.load, load, cellIndex_slots]
  cases s.cellIndex program offset with
  | error fault => rfl
  | ok i =>
    dsimp only [ok_bind, slots]
    rw [Array.getElem?_map]
    cases s.cells[i]? with
    | none => rfl
    | some b => exact congrArg Except.ok (UInt8.toUInt8_toUInt32 b)

private theorem update_slots (program offset : Nat) (value : UInt8) :
    (s.update program offset value).slots =
      { s.slots with
        words :=
          s.slots.words.setIfInBounds (program * s.tapeLength + offset) value.toUInt32 } := by
  rw [slots, update, Array.map_setIfInBounds]
  rfl

private theorem write_slots (program offset : Nat) (value : UInt8) :
    s.slots.write program offset value = (s.write program offset value).map slots := by
  by_cases hplace : program < s.programs ∧ offset < s.tapeLength
  · have hslot : program * s.tapeLength + offset < s.slots.words.size := by
      rw [slots, Array.size_map, s.size_eq]
      exact s.slot_lt hplace.1 hplace.2
    rw [s.write_eq_ok value hplace.1 hplace.2, Slots.write, cellIndex_slots,
      s.cellIndex_eq_ok hplace.1 hplace.2, ok_bind, if_pos hslot, Except.map, update_slots]
  · rw [s.write_eq_error value hplace, Slots.write, cellIndex_slots, s.cellIndex_eq_error hplace]
    rfl

private theorem writeAll_slots (writes : List Write) :
    s.slots.writeAll writes = (s.writeAll writes).map slots := by
  induction writes generalizing s with
  | nil => rfl
  | cons w writes ih =>
    rw [Slots.writeAll, writeAll, List.foldlM_cons, List.foldlM_cons, write_slots]
    cases s.write w.program w.offset w.value with
    | error fault => rfl
    | ok t => exact ih t

private theorem writeCells_slots (buffer : Array UInt32) :
    s.slots.writeCells buffer = (s.writeCells buffer).map slots := by
  have hsize : s.slots.words.size = s.cells.size := Array.size_map
  rw [Slots.writeCells, writeCells, hsize]
  by_cases h : buffer.size = s.cells.size
  · have hwords : s.slots.words.zipWith (fun _ value => value &&& 0xFF) buffer =
        (buffer.map UInt32.toUInt8).map UInt8.toUInt32 := by
      apply Array.ext
      · simp [hsize, h]
      · intro i _ _
        simp [Slots.word_and_mask]
    rw [Error.require_eq_ok h, ok_bind, dif_pos h, hwords]
    rfl
  · rw [Error.require_eq_error h, dif_neg h]
    rfl

private theorem programBytes_slots (program : Nat) :
    s.slots.programBytes program = s.programBytes program := by
  have hload : s.slots.load program = s.load program := funext (s.load_slots program)
  rw [Slots.programBytes, hload]
  rfl

theorem holds_slots : s.slots.Holds s where
  cellIndex_eq := s.cellIndex_slots
  load_eq := s.load_slots
  write_eq := s.write_slots
  writeAll_eq := s.writeAll_slots
  writeCells_eq := s.writeCells_slots
  programBytes_eq := s.programBytes_slots
  populationBytes_eq := s.cells_eq_of_snapshot.symm
  snapshot_eq := rfl

end Store

theorem Slots.ofCells_eq (tapeLength : Nat) (buffer : Array UInt32) :
    ofCells tapeLength buffer = (Store.ofCells tapeLength buffer).map Store.slots := by
  rw [ofCells, Store.ofCells, map_bind]
  apply bind_congr
  intro _
  rw [map_bind, zeroed_eq]
  cases Store.zeroed tapeLength (buffer.size / tapeLength) with
  | error e => rfl
  | ok s => exact s.writeCells_slots buffer

end TapeTorus
