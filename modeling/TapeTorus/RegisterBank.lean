import TapeTorus.Error

/-!
# The register bank

One register triple per program, in the order of the programs.
-/

namespace TapeTorus

structure RegisterBank where
  tapeLength : Nat
  triples : Array Registers

namespace RegisterBank

def size (b : RegisterBank) : Nat := b.triples.size

def isEmpty (b : RegisterBank) : Bool := b.triples.isEmpty

def zeroed (programs tapeLength : Nat) : RegisterBank :=
  ⟨tapeLength, Array.replicate programs Registers.start⟩

/-- A bank for programs at their start, if there can be one for so many. -/
def fresh (programs tapeLength : Nat) : Except Fault RegisterBank := do
  Size.table programs Registers.bytes
  return zeroed programs tapeLength

/-- Groups the values of a flat buffer by three. -/
def triplesOf : List UInt32 → List Registers
  | ip :: head0 :: head1 :: rest => ⟨ip, head0, head1⟩ :: triplesOf rest
  | _ => []

/-- Reads the flat buffer of triples, all of which must lie on the tape. -/
def ofFlat (flat : Array UInt32) (tapeLength : Nat) : Except Error RegisterBank := do
  Error.require (flat.size % 3 = 0) (.raggedRegisters flat.size)
  let triples := (triplesOf flat.toList).toArray
  match h : triples.findIdx? (fun r => ¬r.Within tapeLength) with
  | some i =>
    have inBounds : i < triples.size := (Array.findIdx?_eq_some_iff_getElem.1 h).1
    .error (.config (.registersOutside i triples[i] tapeLength))
  | none => .ok ⟨tapeLength, triples⟩

/-- The bank of a flat buffer; without one, every program is at its start. -/
def ofBuffer (programs tapeLength : Nat) : Option (Array UInt32) → Except Error RegisterBank
  | some flat => ofFlat flat tapeLength
  | none => Fault.lift (fresh programs tapeLength)

def toFlat (b : RegisterBank) : List UInt32 :=
  b.triples.toList.flatMap fun r => [r.ip, r.head0, r.head1]

def get (b : RegisterBank) (program : Nat) : Except Fault Registers :=
  match b.triples[program]? with
  | some r => .ok r
  | none => .error .outOfRange

/-- Replaces one triple, which must lie on the tape. -/
def set (b : RegisterBank) (program : Nat) (r : Registers) : Except Error RegisterBank := do
  Error.require (program < b.size) (.unknownProgram program b.size)
  Error.require (r.Within b.tapeLength) (.registersExceed r b.tapeLength)
  return { b with triples := b.triples.setIfInBounds program r }

/-- Replaces one triple without a check; for the interpreter, which keeps
every register on the tape. -/
def put (b : RegisterBank) (program : Nat) (r : Registers) : RegisterBank :=
  { b with triples := b.triples.setIfInBounds program r }

def reset (b : RegisterBank) : RegisterBank :=
  { b with triples := b.triples.map fun _ => Registers.start }

/-! ## Triples inside and outside the bank -/

theorem get_eq_ok_iff {b : RegisterBank} {program : Nat} {r : Registers} :
    b.get program = .ok r ↔ b.triples[program]? = some r := by
  unfold get
  split <;> simp_all

theorem get_ok {b : RegisterBank} {program : Nat} (h : program < b.size) :
    ∃ r, b.get program = .ok r :=
  ⟨_, get_eq_ok_iff.2 (Array.getElem?_eq_getElem h)⟩

theorem lt_size_of_get {b : RegisterBank} {program : Nat} {r : Registers}
    (h : b.get program = .ok r) : program < b.size :=
  (Array.getElem?_eq_some_iff.1 (get_eq_ok_iff.1 h)).1

@[simp] theorem size_put (b : RegisterBank) (program : Nat) (r : Registers) :
    (b.put program r).size = b.size := Array.size_setIfInBounds

theorem get_put_self {b : RegisterBank} {program : Nat} {r : Registers}
    (h : program < b.size) : (b.put program r).get program = .ok r :=
  get_eq_ok_iff.2 (Array.getElem?_setIfInBounds_self_of_lt h)

theorem get_put_of_ne {b : RegisterBank} {p q : Nat} {r : Registers} (h : p ≠ q) :
    (b.put p r).get q = b.get q := by
  simp only [get, put, Array.getElem?_setIfInBounds_ne h]

theorem eq_of_get {a b : RegisterBank} (hlength : a.tapeLength = b.tapeLength)
    (hsize : a.size = b.size) (h : ∀ p < a.size, a.get p = b.get p) : a = b := by
  have htriples : a.triples = b.triples := by
    refine Array.ext hsize fun p ha hb => ?_
    have hget := get_eq_ok_iff.1
      ((h p ha).symm.trans (get_eq_ok_iff.2 (Array.getElem?_eq_getElem ha)))
    rw [Array.getElem?_eq_getElem hb, Option.some.injEq] at hget
    exact hget.symm
  cases a
  cases b
  simp only at hlength htriples
  rw [hlength, htriples]

end RegisterBank
end TapeTorus
