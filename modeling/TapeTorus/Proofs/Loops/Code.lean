import Mathlib.Data.List.Basic
import TapeTorus.Bracket

/-!
# Tapes as nested loops

A tape with balanced brackets is a sequence of simple bytes and loops.  `Code` is
that sequence as a tree, `Code.parse?` reads it off the tape, and the bracket
scans of the interpreter step over a piece of code that lies on a tape.
-/

namespace TapeTorus

namespace Bracket

/-- There are as many closing as opening brackets, and no prefix has more. -/
def Balanced (tape : List UInt8) : Prop :=
  tape.count opening = tape.count closing ∧
    ∀ n ≤ tape.length, (tape.take n).count closing ≤ (tape.take n).count opening

instance (tape : List UInt8) : Decidable (Balanced tape) :=
  inferInstanceAs (Decidable (_ ∧ _))

private theorem Balanced.drop_le {tape : List UInt8} (h : Balanced tape) (n : Nat) :
    (tape.drop n).count opening ≤ (tape.drop n).count closing := by
  have hsplit (byte : UInt8) :
      (tape.take n).count byte + (tape.drop n).count byte = tape.count byte := by
    rw [← List.count_append, List.take_append_drop]
  by_cases hn : n ≤ tape.length
  · have hopening := hsplit opening
    have hclosing := hsplit closing
    have hprefix := h.2 n hn
    have htotal := h.1
    omega
  · have hnil : tape.drop n = [] := List.drop_eq_nil_of_le (by omega)
    simp [hnil]

theorem plain_of_ofByte? {a b : UInt8} (h : Instruction.ofByte? a = Instruction.ofByte? b)
    (hb : Plain b) : Plain a :=
  ⟨fun ha => hb.1 (Instruction.eq_toByte_of_ofByte? h.symm ha),
    fun ha => hb.2 (Instruction.eq_toByte_of_ofByte? h.symm ha)⟩

end Bracket

open TapeTorus.Bracket

inductive Code where
  | done
  | simple (byte : UInt8) (plain : Plain byte) (rest : Code)
  | loop (body rest : Code)

namespace Code

def bytes : Code → List UInt8
  | done => []
  | simple byte _ rest => byte :: rest.bytes
  | loop body rest => opening :: body.bytes ++ closing :: rest.bytes

def length : Code → Nat
  | done => 0
  | simple _ _ rest => rest.length + 1
  | loop body rest => body.length + rest.length + 2

theorem length_bytes (code : Code) : code.bytes.length = code.length := by
  induction code with
  | done => rfl
  | simple byte plain rest ih => simp [bytes, length, ih]
  | loop body rest ihBody ihRest =>
    simp only [bytes, length, List.length_append, List.length_cons, ihBody, ihRest]
    omega

/-! ## Parsing -/

/-- Puts a byte in front of code.  The codes of `outer` follow, each one behind
a closing bracket whose opening bracket is still to come. -/
def push (byte : UInt8) (code : Code) (outer : List Code) : Option (Code × List Code) :=
  if hopening : byte = opening then
    match outer with
    | [] => none
    | rest :: outer => some (loop code rest, outer)
  else if hclosing : byte = closing then some (done, code :: outer)
  else some (simple byte ⟨hopening, hclosing⟩ code, outer)

/-- Reads a tape from its end to its start. -/
def parseFrom : List UInt8 → Option (Code × List Code)
  | [] => some (done, [])
  | byte :: tape => do
    let (code, outer) ← parseFrom tape
    push byte code outer

/-- The code of a tape, if every bracket has a partner. -/
def parse? (tape : List UInt8) : Option Code :=
  match parseFrom tape with
  | some (code, []) => some code
  | _ => none

/-- The bytes of code with the closing brackets and the codes that follow it. -/
def unparse : Code → List Code → List UInt8
  | code, [] => code.bytes
  | code, next :: outer => code.bytes ++ closing :: unparse next outer

private theorem unparse_simple (byte : UInt8) (plain : Plain byte) (code : Code)
    (outer : List Code) :
    unparse (simple byte plain code) outer = byte :: unparse code outer := by
  cases outer <;> rfl

private theorem unparse_loop (code rest : Code) (outer : List Code) :
    unparse (loop code rest) outer = opening :: unparse code (rest :: outer) := by
  cases outer <;> simp [unparse, bytes]

private theorem unparse_of_push {byte : UInt8} {code code' : Code} {outer outer' : List Code}
    (h : push byte code outer = some (code', outer')) :
    unparse code' outer' = byte :: unparse code outer := by
  unfold push at h
  split at h
  · rename_i hopening
    cases outer with
    | nil => simp at h
    | cons rest outer =>
      simp only [Option.some.injEq, Prod.mk.injEq] at h
      obtain ⟨rfl, rfl⟩ := h
      rw [unparse_loop, hopening]
  · split at h
    · rename_i hclosing
      simp only [Option.some.injEq, Prod.mk.injEq] at h
      obtain ⟨rfl, rfl⟩ := h
      simp [unparse, bytes, hclosing]
    · simp only [Option.some.injEq, Prod.mk.injEq] at h
      obtain ⟨rfl, rfl⟩ := h
      exact unparse_simple ..

private theorem unparse_of_parseFrom {tape : List UInt8} {code : Code} {outer : List Code}
    (h : parseFrom tape = some (code, outer)) : unparse code outer = tape := by
  induction tape generalizing code outer with
  | nil =>
    simp only [parseFrom, Option.some.injEq, Prod.mk.injEq] at h
    obtain ⟨rfl, rfl⟩ := h
    rfl
  | cons byte tape ih =>
    simp only [parseFrom, Option.bind_eq_bind, Option.bind_eq_some_iff] at h
    obtain ⟨⟨next, outer'⟩, hnext, hpush⟩ := h
    rw [unparse_of_push hpush, ih hnext]

private theorem bytes_of_parse? {tape : List UInt8} {code : Code} (h : parse? tape = some code) :
    code.bytes = tape := by
  unfold parse? at h
  split at h
  · rename_i hparse
    obtain rfl := Option.some.inj h
    exact unparse_of_parseFrom hparse
  · simp at h

/-- Where no suffix lacks a closing bracket, one code is kept for every closing
bracket without an opening one. -/
theorem parseFrom_of_suffixes {tape : List UInt8}
    (h : ∀ n, (tape.drop n).count opening ≤ (tape.drop n).count closing) :
    ∃ code outer, parseFrom tape = some (code, outer) ∧
      outer.length + tape.count opening = tape.count closing := by
  induction tape with
  | nil => exact ⟨done, [], rfl, rfl⟩
  | cons byte tape ih =>
    obtain ⟨code, outer, hparse, hcount⟩ := ih fun n => h (n + 1)
    have hwhole := h 0
    simp only [List.drop_zero] at hwhole
    simp only [parseFrom, hparse, Option.bind_eq_bind, Option.bind_some, push]
    by_cases hopening : byte = opening
    · subst hopening
      rw [List.count_cons_self, List.count_cons_of_ne opening_ne_closing] at hwhole ⊢
      cases outer with
      | nil =>
        simp only [List.length_nil] at hcount
        omega
      | cons rest outer =>
        simp only [List.length_cons] at hcount
        exact ⟨loop code rest, outer, rfl, by omega⟩
    · rw [List.count_cons_of_ne hopening]
      by_cases hclosing : byte = closing
      · subst hclosing
        rw [List.count_cons_self]
        exact ⟨done, code :: outer, by simp [hopening], by simp only [List.length_cons]; omega⟩
      · rw [List.count_cons_of_ne hclosing]
        exact ⟨simple byte ⟨hopening, hclosing⟩ code, outer, by simp [hopening, hclosing], hcount⟩

theorem parse?_of_balanced {tape : List UInt8} (h : Balanced tape) :
    ∃ code, parse? tape = some code := by
  obtain ⟨code, outer, hparse, hcount⟩ := parseFrom_of_suffixes h.drop_le
  have hlength : outer.length = 0 := by
    have htotal := h.1
    omega
  obtain rfl := List.eq_nil_of_length_eq_zero hlength
  exact ⟨code, by rw [parse?, hparse]⟩

example : (parse? [opening, 43, opening, closing, closing, 45]).map bytes =
    some [opening, 43, opening, closing, closing, 45] := by decide

/-! ## Code on a tape -/

/-- The cells from `position` on hold the code, up to other bytes that have the
same effect. -/
def Placed (cell : Nat → UInt8) : Nat → Code → Prop
  | _, done => True
  | position, simple byte _ rest =>
    Instruction.ofByte? (cell position) = Instruction.ofByte? byte ∧
      Placed cell (position + 1) rest
  | position, loop body rest =>
    cell position = opening ∧ Placed cell (position + 1) body ∧
      cell (position + 1 + body.length) = closing ∧
        Placed cell (position + 1 + body.length + 1) rest

private theorem placed_of_bytes {cell : Nat → UInt8} {position : Nat} {code : Code}
    (h : ∀ (i : Nat) (b : UInt8), code.bytes[i]? = some b →
      Instruction.ofByte? (cell (position + i)) = Instruction.ofByte? b) :
    Placed cell position code := by
  induction code generalizing position with
  | done => trivial
  | simple byte plain rest ih =>
    refine ⟨h 0 byte rfl, ih fun i b hb => ?_⟩
    rw [Nat.add_right_comm]
    exact h (i + 1) b hb
  | loop body rest ihBody ihRest =>
    have hlength := body.length_bytes
    refine ⟨Instruction.eq_toByte_of_ofByte? (h 0 opening rfl) rfl, ihBody fun i b hb => ?_, ?_,
      ihRest fun i b hb => ?_⟩
    · have hi := (List.getElem?_eq_some_iff.1 hb).1
      rw [Nat.add_right_comm]
      apply h (i + 1) b
      simp only [bytes, List.cons_append, List.getElem?_cons_succ]
      rw [List.getElem?_append_left hi, hb]
    · rw [Nat.add_right_comm]
      refine Instruction.eq_toByte_of_ofByte? (h (body.length + 1) closing ?_) rfl
      simp [bytes, ← hlength]
    · rw [show position + 1 + body.length + 1 + i = position + (body.length + 1 + i + 1) by omega]
      apply h (body.length + 1 + i + 1) b
      simp only [bytes, List.cons_append, List.getElem?_cons_succ]
      rw [List.getElem?_append_right (by omega),
        show body.length + 1 + i - body.bytes.length = i + 1 by omega, List.getElem?_cons_succ, hb]

theorem placed_of_parse? {tape : List UInt8} {code : Code} (h : parse? tape = some code) :
    code.length = tape.length ∧ code.Placed (fun o => tape.getD o 0) 0 := by
  have hbytes := bytes_of_parse? h
  refine ⟨by rw [← code.length_bytes, hbytes], placed_of_bytes fun i b hb => ?_⟩
  rw [hbytes] at hb
  simp [hb]

theorem Placed.congr {cell cell' : Nat → UInt8} {position : Nat} {code : Code}
    (h : Placed cell position code)
    (hcell : ∀ o, position ≤ o → o < position + code.length →
      Instruction.ofByte? (cell' o) = Instruction.ofByte? (cell o)) :
    Placed cell' position code := by
  induction code generalizing position with
  | done => trivial
  | simple byte plain rest ih =>
    rw [length] at hcell
    obtain ⟨hbyte, hrest⟩ := h
    refine ⟨(hcell _ (by omega) (by omega)).trans hbyte, ih hrest fun o hlo hhi => ?_⟩
    exact hcell o (by omega) (by omega)
  | loop body rest ihBody ihRest =>
    rw [length] at hcell
    obtain ⟨hopening, hbody, hclosing, hrest⟩ := h
    refine ⟨?_, ihBody hbody fun o hlo hhi => ?_, ?_, ihRest hrest fun o hlo hhi => ?_⟩
    · exact Instruction.eq_toByte_of_ofByte? (hcell _ (by omega) (by omega)) hopening
    · exact hcell o (by omega) (by omega)
    · exact Instruction.eq_toByte_of_ofByte? (hcell _ (by omega) (by omega)) hclosing
    · exact hcell o (by omega) (by omega)

/-- A run can begin code that starts at `start` at `position`: a loop also at its
closing bracket, as it does after each pass. -/
def Entry : Code → (start position : Nat) → Prop
  | loop body _, start, position => position = start ∨ position = start + 1 + body.length
  | _, start, position => position = start

theorem entry_start (code : Code) (start : Nat) : code.Entry start start := by
  cases code with
  | done => rfl
  | simple byte plain rest => rfl
  | loop body rest => exact .inl rfl

private theorem scanUp_placed {cell : Nat → UInt8} {position : Nat} {code : Code}
    (h : Placed cell position code) (count nested : Nat) :
    scanUp cell (code.length + count) position nested =
      scanUp cell count (position + code.length) nested := by
  induction code generalizing position count nested with
  | done => simp [length]
  | simple byte plain rest ih =>
    obtain ⟨hbyte, hrest⟩ := h
    have hplain := plain_of_ofByte? hbyte plain
    rw [length, Nat.add_right_comm, scanUp_plain hplain, ih hrest, Nat.add_right_comm,
      Nat.add_assoc]
  | loop body rest ihBody ihRest =>
    obtain ⟨hopening, hbody, hclosing, hrest⟩ := h
    have hcount : (loop body rest).length + count =
        body.length + (rest.length + count + 1) + 1 := by
      rw [length]
      omega
    have hposition : position + (loop body rest).length =
        position + 1 + body.length + 1 + rest.length := by
      rw [length]
      omega
    rw [hcount, hposition, scanUp_opening hopening, ihBody hbody, scanUp_closing hclosing,
      ihRest hrest]

private theorem scanDown_placed {cell : Nat → UInt8} {position : Nat} {code : Code}
    (h : Placed cell position code) (nested : Nat) :
    scanDown cell (position + code.length) nested = scanDown cell position nested := by
  induction code generalizing position nested with
  | done => rfl
  | simple byte plain rest ih =>
    obtain ⟨hbyte, hrest⟩ := h
    have hplain := plain_of_ofByte? hbyte plain
    rw [length, show position + (rest.length + 1) = position + 1 + rest.length by omega,
      ih hrest, scanDown_plain hplain]
  | loop body rest ihBody ihRest =>
    obtain ⟨hopening, hbody, hclosing, hrest⟩ := h
    have hposition : position + (loop body rest).length =
        position + 1 + body.length + 1 + rest.length := by
      rw [length]
      omega
    rw [hposition, ihRest hrest, scanDown_closing hclosing, ihBody hbody,
      scanDown_opening hopening]

/-- The brackets of a loop are partners. -/
theorem matchForward?_placed {cell : Nat → UInt8} {position last : Nat} {body rest : Code}
    (h : Placed cell position (loop body rest)) (hlast : position + 1 + body.length < last) :
    matchForward? cell last position = some (position + 1 + body.length) := by
  obtain ⟨-, hbody, hclosing, -⟩ := h
  have hcount : last - (position + 1) =
      body.length + (last - (position + 1 + body.length + 1) + 1) := by omega
  rw [matchForward?, hcount, scanUp_placed hbody, scanUp_found hclosing]

theorem matchBackward?_placed {cell : Nat → UInt8} {position : Nat} {body rest : Code}
    (h : Placed cell position (loop body rest)) :
    matchBackward? cell (position + 1 + body.length) = some position := by
  obtain ⟨hopening, hbody, -, -⟩ := h
  rw [matchBackward?, scanDown_placed hbody, scanDown_found hopening]

end Code
end TapeTorus
