import TapeTorus.Instruction
import TapeTorus.Size

/-!
# Matching brackets

The scans look for the partner of a bracket by counting how many brackets are
open.  Each cell is read as the scan comes to it, and each count and position
has to be a size.  Where the whole tape is known as a function from positions
to bytes, `matchForward?` and `matchBackward?` are what the scans find.
-/

namespace TapeTorus.Bracket

def opening : UInt8 := Instruction.loopStart.toByte

def closing : UInt8 := Instruction.loopEnd.toByte

theorem opening_ne_closing : opening ≠ closing := by decide

/-- The byte is no bracket. -/
def Plain (byte : UInt8) : Prop := byte ≠ opening ∧ byte ≠ closing

/-! ## Scans -/

/-- Scans the `count` cells after `position`, with `depth` brackets open. -/
def seekUp (read : Nat → Except Fault UInt8) :
    (count position depth : Nat) → Except Fault (Option Nat)
  | 0, _, _ => .ok none
  | count + 1, position, depth => do
    let position ← Size.add position 1
    let byte ← read position
    if byte = closing then
      let depth ← Size.sub depth 1
      if depth = 0 then return some position else seekUp read count position depth
    else if byte = opening then
      let depth ← Size.add depth 1
      seekUp read count position depth
    else seekUp read count position depth

/-- Scans the cells before `position`, from the nearest to the first, with
`depth` brackets open. -/
def seekDown (read : Nat → Except Fault UInt8) :
    (position depth : Nat) → Except Fault (Option Nat)
  | 0, _ => .ok none
  | position + 1, depth => do
    let byte ← read position
    if byte = opening then
      let depth ← Size.sub depth 1
      if depth = 0 then return some position else seekDown read position depth
    else if byte = closing then
      let depth ← Size.add depth 1
      seekDown read position depth
    else seekDown read position depth

/-! ## Scans of a known tape -/

/-- Scans `count` cells from `position` on, with `nested` brackets open besides
the one whose partner is looked for. -/
def scanUp (cell : Nat → UInt8) : (count position nested : Nat) → Option Nat
  | 0, _, _ => none
  | count + 1, position, nested =>
    if cell position = closing then
      match nested with
      | 0 => some position
      | nested + 1 => scanUp cell count (position + 1) nested
    else if cell position = opening then scanUp cell count (position + 1) (nested + 1)
    else scanUp cell count (position + 1) nested

/-- Scans the cells before `position`, from the nearest to the first, with
`nested` brackets open besides the one whose partner is looked for. -/
def scanDown (cell : Nat → UInt8) : (position nested : Nat) → Option Nat
  | 0, _ => none
  | position + 1, nested =>
    if cell position = opening then
      match nested with
      | 0 => some position
      | nested + 1 => scanDown cell position nested
    else if cell position = closing then scanDown cell position (nested + 1)
    else scanDown cell position nested

/-- The closing bracket of the opening one at `ip`, on a tape of `length` cells. -/
def matchForward? (cell : Nat → UInt8) (length ip : Nat) : Option Nat :=
  scanUp cell (length - (ip + 1)) (ip + 1) 0

/-- The opening bracket of the closing one at `ip`. -/
def matchBackward? (cell : Nat → UInt8) (ip : Nat) : Option Nat :=
  scanDown cell ip 0

section Steps

variable {cell : Nat → UInt8} {count position nested : Nat}

theorem scanUp_plain (h : Plain (cell position)) :
    scanUp cell (count + 1) position nested = scanUp cell count (position + 1) nested := by
  simp only [scanUp, if_neg h.1, if_neg h.2]

theorem scanUp_opening (h : cell position = opening) :
    scanUp cell (count + 1) position nested = scanUp cell count (position + 1) (nested + 1) := by
  simp only [scanUp, h, if_neg opening_ne_closing, if_true]

theorem scanUp_closing (h : cell position = closing) :
    scanUp cell (count + 1) position (nested + 1) = scanUp cell count (position + 1) nested := by
  simp only [scanUp, if_pos h]

theorem scanUp_found (h : cell position = closing) :
    scanUp cell (count + 1) position 0 = some position := by
  simp only [scanUp, if_pos h]

theorem scanDown_plain (h : Plain (cell position)) :
    scanDown cell (position + 1) nested = scanDown cell position nested := by
  simp only [scanDown, if_neg h.1, if_neg h.2]

theorem scanDown_closing (h : cell position = closing) :
    scanDown cell (position + 1) nested = scanDown cell position (nested + 1) := by
  simp only [scanDown, h, if_neg opening_ne_closing.symm, if_true]

theorem scanDown_opening (h : cell position = opening) :
    scanDown cell (position + 1) (nested + 1) = scanDown cell position nested := by
  simp only [scanDown, if_pos h]

theorem scanDown_found (h : cell position = opening) :
    scanDown cell (position + 1) 0 = some position := by
  simp only [scanDown, if_pos h]

end Steps

theorem seekUp_eq {read : Nat → Except Fault UInt8} {cell : Nat → UInt8}
    {count position nested : Nat}
    (hread : ∀ o, position < o → o ≤ position + count → read o = .ok (cell o))
    (hposition : position + count < Size.limit) (hnested : nested + count + 1 < Size.limit) :
    seekUp read count position (nested + 1) = .ok (scanUp cell count (position + 1) nested) := by
  induction count generalizing position nested with
  | zero => rfl
  | succ count ih =>
    have hbyte : read (position + 1) = .ok (cell (position + 1)) :=
      hread _ (by omega) (by omega)
    have hrest : ∀ o, position + 1 < o → o ≤ position + 1 + count → read o = .ok (cell o) :=
      fun o hlo hhi => hread o (by omega) (by omega)
    simp only [seekUp, scanUp, Size.add_eq_ok (show position + 1 < Size.limit by omega), hbyte,
      bind, Except.bind]
    split
    · rw [Size.sub_eq_ok (by omega)]
      cases nested with
      | zero => rfl
      | succ nested => exact ih hrest (by omega) (by omega)
    · split
      · rw [Size.add_eq_ok (by omega)]
        exact ih hrest (by omega) (by omega)
      · exact ih hrest (by omega) (by omega)

theorem seekDown_eq {read : Nat → Except Fault UInt8} {cell : Nat → UInt8}
    {position nested : Nat} (hread : ∀ o < position, read o = .ok (cell o))
    (hnested : nested + position + 1 < Size.limit) :
    seekDown read position (nested + 1) = .ok (scanDown cell position nested) := by
  induction position generalizing nested with
  | zero => rfl
  | succ position ih =>
    have hbyte : read position = .ok (cell position) := hread _ (by omega)
    have hrest : ∀ o < position, read o = .ok (cell o) := fun o ho => hread o (by omega)
    simp only [seekDown, scanDown, hbyte, bind, Except.bind]
    split
    · rw [Size.sub_eq_ok (by omega)]
      cases nested with
      | zero => rfl
      | succ nested => exact ih hrest (by omega)
    · split
      · rw [Size.add_eq_ok (by omega)]
        exact ih hrest (by omega)
      · exact ih hrest (by omega)

theorem scanUp_lt {cell : Nat → UInt8} {count position nested found : Nat}
    (h : scanUp cell count position nested = some found) : found < position + count := by
  induction count generalizing position nested with
  | zero => simp [scanUp] at h
  | succ count ih =>
    simp only [scanUp] at h
    split at h
    · cases nested with
      | zero => simp at h; omega
      | succ nested => have := ih h; omega
    · split at h <;> · have := ih h; omega

theorem scanDown_lt {cell : Nat → UInt8} {position nested found : Nat}
    (h : scanDown cell position nested = some found) : found < position := by
  induction position generalizing nested with
  | zero => simp [scanDown] at h
  | succ position ih =>
    simp only [scanDown] at h
    split at h
    · cases nested with
      | zero => simp at h; omega
      | succ nested => have := ih h; omega
    · split at h <;> · have := ih h; omega

end TapeTorus.Bracket
