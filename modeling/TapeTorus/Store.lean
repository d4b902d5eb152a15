import TapeTorus.Error

/-!
# The store

The tapes of all programs, one after the other, in one array of bytes.
-/

namespace TapeTorus

/-- The bytes that a table keeps for one cell. -/
abbrev Store.cellBytes : Nat := 4

/-- `programs` tapes of `tapeLength` cells each. -/
structure Store where
  tapeLength : Nat
  programs : Nat
  cells : Array UInt8
  tapeLength_pos : 0 < tapeLength
  programs_pos : 0 < programs
  size_eq : cells.size = programs * tapeLength
  fits : programs * tapeLength * Store.cellBytes ≤ Size.tableLimit

namespace Store

def size (s : Store) : Nat := s.cells.size

def isEmpty (s : Store) : Bool := s.size == 0

def zeroed (tapeLength programs : Nat) : Except Error Store :=
  if h : 0 < tapeLength ∧ 0 < programs then
    if programs * tapeLength < Size.limit then
      if fits : programs * tapeLength * cellBytes ≤ Size.tableLimit then
        .ok ⟨tapeLength, programs, Array.replicate (programs * tapeLength) 0, h.1, h.2,
          Array.size_replicate, fits⟩
      else .error (.fault .capacity)
    else .error (.config (.storeTooLarge programs tapeLength))
  else .error (.config (.emptyStore tapeLength programs))

def cellIndex (s : Store) (program offset : Nat) : Except Fault Nat :=
  if program < s.programs ∧ offset < s.tapeLength then do
    let start ← Size.mul program s.tapeLength
    Size.add start offset
  else .error .outOfRange

/-- The byte of a cell; zero outside the store. -/
def cell (s : Store) (program offset : Nat) : UInt8 :=
  s.cells.getD (program * s.tapeLength + offset) 0

def load (s : Store) (program offset : Nat) : Except Fault UInt8 := do
  let i ← s.cellIndex program offset
  match s.cells[i]? with
  | some b => .ok b
  | none => .error .outOfRange

def update (s : Store) (program offset : Nat) (value : UInt8) : Store :=
  { s with
    cells := s.cells.setIfInBounds (program * s.tapeLength + offset) value
    size_eq := by simp [s.size_eq] }

def write (s : Store) (program offset : Nat) (value : UInt8) : Except Fault Store := do
  let i ← s.cellIndex program offset
  if i < s.cells.size then .ok (s.update program offset value) else .error .outOfRange

/-! ## Reading and writing inside the store -/

theorem size_lt_limit (s : Store) : s.programs * s.tapeLength < Size.limit := by
  have hfits := s.fits
  simp only [Size.tableLimit, Size.limit, cellBytes] at *
  omega

theorem slot_lt (s : Store) {program offset : Nat} (hp : program < s.programs)
    (ho : offset < s.tapeLength) :
    program * s.tapeLength + offset < s.programs * s.tapeLength :=
  Size.place_lt hp ho

theorem cellIndex_eq_ok (s : Store) {program offset : Nat} (hp : program < s.programs)
    (ho : offset < s.tapeLength) :
    s.cellIndex program offset = .ok (program * s.tapeLength + offset) := by
  have hslot := s.slot_lt hp ho
  have hfits := s.size_lt_limit
  rw [cellIndex, if_pos ⟨hp, ho⟩, Size.mul_eq_ok (by omega)]
  exact Size.add_eq_ok (by omega)

theorem cellIndex_eq_error (s : Store) {program offset : Nat}
    (h : ¬(program < s.programs ∧ offset < s.tapeLength)) :
    s.cellIndex program offset = .error .outOfRange := if_neg h

theorem load_eq_ok (s : Store) {program offset : Nat} (hp : program < s.programs)
    (ho : offset < s.tapeLength) : s.load program offset = .ok (s.cell program offset) := by
  have hslot := s.slot_lt hp ho
  have hsize : program * s.tapeLength + offset < s.cells.size := by rw [s.size_eq]; exact hslot
  simp [load, cell, s.cellIndex_eq_ok hp ho, hsize, bind, Except.bind]

theorem load_eq_error (s : Store) {program offset : Nat}
    (h : ¬(program < s.programs ∧ offset < s.tapeLength)) :
    s.load program offset = .error .outOfRange := by
  simp only [load, s.cellIndex_eq_error h]
  rfl

theorem load_eq_ok_iff (s : Store) {program offset : Nat} {b : UInt8} :
    s.load program offset = .ok b ↔
      (program < s.programs ∧ offset < s.tapeLength) ∧ s.cell program offset = b := by
  by_cases h : program < s.programs ∧ offset < s.tapeLength
  · simp [s.load_eq_ok h.1 h.2, h]
  · simp [s.load_eq_error h, h]

theorem write_eq_error (s : Store) {program offset : Nat} (value : UInt8)
    (h : ¬(program < s.programs ∧ offset < s.tapeLength)) :
    s.write program offset value = .error .outOfRange := by
  simp only [write, s.cellIndex_eq_error h]
  rfl

theorem write_eq_ok (s : Store) {program offset : Nat} (value : UInt8)
    (hp : program < s.programs) (ho : offset < s.tapeLength) :
    s.write program offset value = .ok (s.update program offset value) := by
  have hslot := s.slot_lt hp ho
  have hsize : program * s.tapeLength + offset < s.cells.size := by rw [s.size_eq]; exact hslot
  simp only [write, s.cellIndex_eq_ok hp ho, bind, Except.bind, if_pos hsize]

theorem write_eq_ok_iff (s t : Store) {program offset : Nat} {value : UInt8} :
    s.write program offset value = .ok t ↔
      (program < s.programs ∧ offset < s.tapeLength) ∧ s.update program offset value = t := by
  by_cases h : program < s.programs ∧ offset < s.tapeLength
  · simp [s.write_eq_ok value h.1 h.2, h]
  · simp [s.write_eq_error value h, h]

theorem tapeLength_lt (s : Store) : s.tapeLength < Size.limit :=
  Nat.lt_of_le_of_lt (Nat.le_mul_of_pos_left _ s.programs_pos) s.size_lt_limit

/-- A write is read back at its own cell, and every other cell keeps its byte. -/
theorem cell_update (s : Store) {program offset p o : Nat} (value : UInt8)
    (hp : program < s.programs) (ho : offset < s.tapeLength) (ho2 : o < s.tapeLength) :
    (s.update program offset value).cell p o =
      if p = program ∧ o = offset then value else s.cell p o := by
  have hslot := s.slot_lt hp ho
  have hsize : program * s.tapeLength + offset < s.cells.size := by rw [s.size_eq]; exact hslot
  by_cases h : p = program ∧ o = offset
  · obtain ⟨rfl, rfl⟩ := h
    simp [cell, update, hsize]
  · have hne : p * s.tapeLength + o ≠ program * s.tapeLength + offset := fun e =>
      h ((Size.place_inj ho2 ho).1 e)
    simp [cell, update, hne.symm, h]

/-! ## Host buffers -/

/-- Replaces all cells by the low bytes of a buffer of the same size. -/
def writeCells (s : Store) (buffer : Array UInt32) : Except Error Store :=
  if h : buffer.size = s.cells.size then
    .ok { s with cells := buffer.map UInt32.toUInt8, size_eq := by simp [h, s.size_eq] }
  else .error (.config (.cellCount s.cells.size buffer.size))

/-- A store with the low bytes of the buffer, which must hold whole tapes. -/
def ofCells (tapeLength : Nat) (buffer : Array UInt32) : Except Error Store := do
  Error.require (tapeLength ≠ 0 ∧ buffer.size % tapeLength = 0)
    (.raggedCells buffer.size tapeLength)
  let s ← zeroed tapeLength (buffer.size / tapeLength)
  s.writeCells buffer

def snapshot (s : Store) : Array UInt32 := s.cells.map UInt8.toUInt32

def programBytes (s : Store) (program : Nat) : Except Fault (List UInt8) :=
  (List.range s.tapeLength).mapM (s.load program)

theorem programBytes_eq_ok (s : Store) {program : Nat} (hp : program < s.programs) :
    s.programBytes program = .ok ((List.range s.tapeLength).map (s.cell program)) :=
  mapM_eq_ok fun _ ho => s.load_eq_ok hp (List.mem_range.1 ho)

theorem programBytes_eq_ok_iff (s : Store) {program : Nat} {tape : List UInt8} :
    s.programBytes program = .ok tape ↔
      program < s.programs ∧ (List.range s.tapeLength).map (s.cell program) = tape := by
  by_cases hp : program < s.programs
  · simp [s.programBytes_eq_ok hp, hp]
  · obtain ⟨last, hlast⟩ := Nat.exists_eq_add_one_of_ne_zero (Nat.ne_of_gt s.tapeLength_pos)
    have hload : s.load program 0 = .error .outOfRange := s.load_eq_error fun h => hp h.1
    rw [programBytes, hlast, List.range_succ_eq_map, List.mapM_cons, hload]
    simp [hp, bind, Except.bind]

/-- All tapes, one after the other. -/
def populationBytes (s : Store) : Array UInt8 := s.cells

/-- Every tape, in the order of the programs. -/
def tapes (s : Store) : Except Fault (List (List UInt8)) :=
  (List.range s.programs).mapM s.programBytes

end Store
end TapeTorus
