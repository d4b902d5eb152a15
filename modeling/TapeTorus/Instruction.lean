/-!
# Instructions

Ten byte values are instructions; every other byte does nothing.
-/

namespace TapeTorus

inductive Instruction where
  /-- Moves head 0 one cell back. -/
  | head0Left
  /-- Moves head 0 one cell on. -/
  | head0Right
  /-- Moves head 1 one cell back. -/
  | head1Left
  /-- Moves head 1 one cell on. -/
  | head1Right
  /-- Takes one from the cell under head 0. -/
  | decrement
  /-- Adds one to the cell under head 0. -/
  | increment
  /-- Copies the cell under head 0 to the neighbour's cell under head 1. -/
  | push
  /-- Copies the neighbour's cell under head 1 to the cell under head 0. -/
  | pull
  /-- Skips the loop if the cell under head 0 is zero. -/
  | loopStart
  /-- Repeats the loop unless the cell under head 0 is zero. -/
  | loopEnd
  deriving DecidableEq

namespace Instruction

def all : List Instruction :=
  [head0Left, head0Right, head1Left, head1Right, decrement, increment, push, pull,
    loopStart, loopEnd]

def symbol : Instruction → Char
  | head0Left => '<'
  | head0Right => '>'
  | head1Left => '{'
  | head1Right => '}'
  | decrement => '-'
  | increment => '+'
  | push => '.'
  | pull => ','
  | loopStart => '['
  | loopEnd => ']'

/-- The byte that encodes an instruction is the code of its symbol. -/
def toByte (i : Instruction) : UInt8 := i.symbol.toUInt8

def ofByte? (b : UInt8) : Option Instruction :=
  match b with
  | 60 => some head0Left
  | 62 => some head0Right
  | 123 => some head1Left
  | 125 => some head1Right
  | 45 => some decrement
  | 43 => some increment
  | 46 => some push
  | 44 => some pull
  | 91 => some loopStart
  | 93 => some loopEnd
  | _ => none

theorem ofByte?_toByte (i : Instruction) : ofByte? i.toByte = some i := by
  cases i <;> rfl

theorem toByte_of_ofByte? {b : UInt8} {i : Instruction} (h : ofByte? b = some i) :
    i.toByte = b := by
  unfold ofByte? at h
  split at h <;> simp_all <;> subst h <;> rfl

theorem ofByte?_eq_some_iff {b : UInt8} {i : Instruction} :
    ofByte? b = some i ↔ b = i.toByte :=
  ⟨fun h => (toByte_of_ofByte? h).symm, fun h => h ▸ ofByte?_toByte i⟩

/-- Where an instruction is encoded, another byte has the same effect only if it
is the same byte. -/
theorem eq_toByte_of_ofByte? {a b : UInt8} {i : Instruction} (h : ofByte? a = ofByte? b)
    (hb : b = i.toByte) : a = i.toByte :=
  ofByte?_eq_some_iff.1 (h.trans (ofByte?_eq_some_iff.2 hb))

/-- The bytes of all instructions, in the order of the table. -/
def bytes : List UInt8 := all.map toByte

def isCode (b : UInt8) : Bool := (ofByte? b).isSome

/-- How a cell is listed: its symbol, or an underscore if it does nothing. -/
def listing (b : UInt8) : Char :=
  match ofByte? b with
  | some i => i.symbol
  | none => '_'

theorem symbol_ne_underscore (i : Instruction) : i.symbol ≠ '_' := by
  cases i <;> decide

theorem ofByte?_eq_of_listing {a b : UInt8} (h : listing a = listing b) :
    ofByte? a = ofByte? b := by
  cases ha : ofByte? a with
  | none =>
    cases hb : ofByte? b with
    | none => rfl
    | some j =>
      simp only [listing, ha, hb] at h
      exact absurd h.symm (symbol_ne_underscore j)
  | some i =>
    cases hb : ofByte? b with
    | none =>
      simp only [listing, ha, hb] at h
      exact absurd h (symbol_ne_underscore i)
    | some j =>
      simp only [listing, ha, hb] at h
      have hbyte : i.toByte = j.toByte := congrArg Char.toUInt8 h
      rw [← ofByte?_toByte i, hbyte, ofByte?_toByte]

def disassemble (tape : List UInt8) : String := String.ofList (tape.map listing)

end Instruction
end TapeTorus
