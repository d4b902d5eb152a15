import TapeTorus.Bracket
import TapeTorus.Config
import TapeTorus.Store
import TapeTorus.Torus

/-!
# One instruction

`step` executes the instruction under the pointer of one program.  Heads move
round their tape, cells count modulo 256, and the two copy instructions reach
the neighbour that the last cell of the own tape selects.  What an instruction
does to heads and cells (`act`), where the program goes on (`target`) and what
happens at the end of the tape (`proceed`) are told apart.
-/

namespace TapeTorus

namespace Store

/-- The closing bracket of the opening one at `ip`. -/
def closingOf (s : Store) (program ip : Nat) : Except Fault (Option Nat) :=
  Bracket.seekUp (s.load program) (s.tapeLength - 1 - ip) ip 1

/-- The opening bracket of the closing one at `ip`. -/
def openingOf (s : Store) (program ip : Nat) : Except Fault (Option Nat) :=
  Bracket.seekDown (s.load program) ip 1

end Store

/-- The surroundings of all programs. -/
structure Machine where
  torus : Torus
  exec : Exec

inductive Outcome where
  /-- The program goes on. -/
  | running
  /-- The program has come to its end. -/
  | halted
  deriving DecidableEq

/-- What one instruction leaves behind. -/
structure Stepped where
  outcome : Outcome
  registers : Registers
  store : Store

namespace Machine

/-- One position back on a tape that ends at `last`. -/
def ringPrev (position last : Nat) : Except Fault UInt32 :=
  if position = 0 then return .ofNat last
  else do
    let previous ← Size.sub position 1
    return .ofNat previous

/-- One position on along a tape that ends at `last`. -/
def ringNext (position last : Nat) : Except Fault UInt32 :=
  if position = last then return 0
  else do
    let next ← Size.add position 1
    return .ofNat next

/-- The neighbour that the copy instructions of `program` reach. -/
def copyTarget (m : Machine) (program : Nat) (s : Store) : Except Fault Nat := do
  let selector ← s.load program (s.tapeLength - 1)
  m.torus.neighbor program (.ofSelector selector.toNat)

/-- What an instruction does to the heads and the cells.  The loop instructions
and the bytes without effect leave both alone. -/
def act (m : Machine) (program : Nat) (r : Registers) (s : Store) :
    Option Instruction → Except Fault (Registers × Store)
  | some .head0Left => do
    let head0 ← ringPrev r.head0.toNat (s.tapeLength - 1)
    return ({ r with head0 := head0 }, s)
  | some .head0Right => do
    let head0 ← ringNext r.head0.toNat (s.tapeLength - 1)
    return ({ r with head0 := head0 }, s)
  | some .head1Left => do
    let head1 ← ringPrev r.head1.toNat (s.tapeLength - 1)
    return ({ r with head1 := head1 }, s)
  | some .head1Right => do
    let head1 ← ringNext r.head1.toNat (s.tapeLength - 1)
    return ({ r with head1 := head1 }, s)
  | some .decrement => do
    let value ← s.load program r.head0.toNat
    let s ← s.write program r.head0.toNat (value - 1)
    return (r, s)
  | some .increment => do
    let value ← s.load program r.head0.toNat
    let s ← s.write program r.head0.toNat (value + 1)
    return (r, s)
  | some .push => do
    let target ← m.copyTarget program s
    let value ← s.load program r.head0.toNat
    let s ← s.write target r.head1.toNat value
    return (r, s)
  | some .pull => do
    let source ← m.copyTarget program s
    let value ← s.load source r.head1.toNat
    let s ← s.write program r.head0.toNat value
    return (r, s)
  | some .loopStart | some .loopEnd | none => return (r, s)

/-- The position behind which the program goes on: that of the instruction
itself, or the matching bracket, if there is one, where a loop is skipped or
repeated. -/
def target (program : Nat) (r : Registers) (s : Store) :
    Option Instruction → Except Fault (Option Nat)
  | some .loopStart => do
    let value ← s.load program r.head0.toNat
    if value = 0 then s.closingOf program r.ip.toNat else return some r.ip.toNat
  | some .loopEnd => do
    let value ← s.load program r.head0.toNat
    if value = 0 then return some r.ip.toNat else s.openingOf program r.ip.toNat
  | _ => return some r.ip.toNat

/-- Executes the instruction under the pointer up to the move of the pointer.
The result is none where the program halts on the spot. -/
def execute (m : Machine) (program : Nat) (r : Registers) (s : Store) :
    Except Fault (Option (Nat × Registers × Store)) := do
  let byte ← s.load program r.ip.toNat
  if byte = 0 ∧ m.exec.haltOnZero then return none
  else
    match ← target program r s (Instruction.ofByte? byte) with
    | none => return none
    | some position => do
      let (r, s) ← m.act program r s (Instruction.ofByte? byte)
      return some (position, r, s)

/-- Moves the pointer behind `position`.  Past the end of the tape it returns
to the first cell, which ends the program unless registers persist. -/
def proceed (m : Machine) (position : Nat) (r : Registers) (s : Store) : Except Fault Stepped := do
  let next ← Size.add position 1
  if next = s.tapeLength then
    return ⟨if m.exec.persist then .running else .halted, { r with ip := 0 }, s⟩
  else return ⟨.running, { r with ip := .ofNat next }, s⟩

/-- Executes one instruction of `program`. -/
def step (m : Machine) (program : Nat) (r : Registers) (s : Store) : Except Fault Stepped := do
  match ← m.execute program r s with
  | none => return ⟨.halted, r, s⟩
  | some (position, r, s) => m.proceed position r s

end Machine
end TapeTorus
