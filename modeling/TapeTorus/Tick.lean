import TapeTorus.RegisterBank
import TapeTorus.Step

/-!
# Ticks

A tick lets every program act once, in the order of the programs.  Each one
sees what those before it have written.
-/

namespace TapeTorus

structure TickStats where
  /-- Instructions executed by all programs. -/
  instructions : Nat
  /-- Programs that came to their end. -/
  halted : Nat
  /-- Programs that the iteration bound stopped. -/
  exhausted : Nat
  deriving DecidableEq

namespace TickStats

def zero : TickStats := ⟨0, 0, 0⟩

def merge (a b : TickStats) : TickStats :=
  ⟨a.instructions + b.instructions, a.halted + b.halted, a.exhausted + b.exhausted⟩

@[simp] theorem zero_merge (a : TickStats) : zero.merge a = a := by
  simp [merge, zero]

@[simp] theorem merge_zero (a : TickStats) : a.merge zero = a := rfl

theorem merge_assoc (a b c : TickStats) : (a.merge b).merge c = a.merge (b.merge c) := by
  simp [merge, Nat.add_assoc]

theorem merge_comm (a b : TickStats) : a.merge b = b.merge a := by
  simp [merge, Nat.add_comm]

end TickStats

/-- What the turn of one program leaves behind. -/
structure Turn where
  stats : TickStats
  registers : Registers
  store : Store

/-- What a sweep over several programs leaves behind. -/
structure Sweep where
  stats : TickStats
  bank : RegisterBank
  store : Store

namespace Machine

def stepTurn (m : Machine) (program : Nat) (r : Registers) (s : Store) : Except Fault Turn := do
  let ⟨outcome, r, s⟩ ← m.step program r s
  return ⟨⟨1, if outcome = .halted then 1 else 0, 0⟩, r, s⟩

/-- Executes up to `budget` further instructions after the first `done`. -/
def runFrom (m : Machine) (program : Nat) :
    (budget done : Nat) → Registers → Store → Except Fault Turn
  | 0, done, r, s => .ok ⟨⟨done, 0, 1⟩, r, s⟩
  | budget + 1, done, r, s => do
    let ⟨outcome, r, s⟩ ← m.step program r s
    match outcome with
    | .halted => .ok ⟨⟨done + 1, 1, 0⟩, r, s⟩
    | .running => m.runFrom program budget (done + 1) r s

/-- A turn from the start of the program to a halt or to the bound. -/
def runProgram (m : Machine) (program limit : Nat) (s : Store) : Except Fault Turn :=
  m.runFrom program limit 0 Registers.start s

end Machine

namespace Sweep

def visit (turn : Nat → Registers → Store → Except Fault Turn) (w : Sweep) (program : Nat) :
    Except Fault Sweep := do
  let r ← w.bank.get program
  let ⟨stats, r, store⟩ ← turn program r w.store
  return ⟨w.stats.merge stats, w.bank.put program r, store⟩

/-- Lets the programs take their turns in the order of the list. -/
def visitAll (turn : Nat → Registers → Store → Except Fault Turn) (programs : List Nat)
    (w : Sweep) : Except Fault Sweep :=
  programs.foldlM (visit turn) w

end Sweep
end TapeTorus
