import Mathlib.Logic.Function.Basic
import TapeTorus.Proofs.TickRange

/-!
# Interleavings

The programs of a tick may take their instructions in any order.  A `Race` holds
the turns of all programs on their way, and `Race.play` lets the programs execute
single instructions in the order of a list.  Whatever the order is, no
instruction fails and every register stays on its tape (`World.interleave_ok`).
-/

namespace TapeTorus

/-- What a program does in a tick. -/
inductive Mode where
  /-- It executes one instruction with the registers that it has. -/
  | step
  /-- It restarts and runs to a halt or to the iteration bound. -/
  | run
  deriving DecidableEq

/-- The registers that a program begins its turn with. -/
def Mode.initial : Mode → Registers → Registers
  | .step, r => r
  | .run, _ => .start

/-- Where the turn of one program stands. -/
structure Thread where
  registers : Registers
  /-- Instructions executed so far. -/
  executed : Nat
  /-- Instructions that may still be executed. -/
  remaining : Nat
  halted : Bool
  deriving DecidableEq

namespace Thread

/-- A turn that begins. -/
def fresh (budget : Nat) (r : Registers) : Thread := ⟨r, 0, budget, false⟩

/-- The turn is over. -/
def Finished (t : Thread) : Prop := t.halted = true ∨ t.remaining = 0

instance (t : Thread) : Decidable t.Finished := inferInstanceAs (Decidable (_ ∨ _))

/-- The turn after one more instruction. -/
def next (t : Thread) (x : Stepped) : Thread :=
  ⟨x.registers, t.executed + 1, t.remaining - 1, x.outcome = .halted⟩

@[simp] theorem remaining_next (t : Thread) (x : Stepped) :
    (t.next x).remaining = t.remaining - 1 := rfl

/-- What is reported of a turn that is over. -/
def stats (mode : Mode) (t : Thread) : TickStats :=
  match mode with
  | .step => ⟨t.executed, if t.halted then 1 else 0, 0⟩
  | .run => ⟨t.executed, if t.halted then 1 else 0, if t.halted then 0 else 1⟩

end Thread

namespace Machine

/-- Executes one instruction of a turn; a turn that is over stays as it is. -/
def advance (m : Machine) (program : Nat) (t : Thread) (s : Store) :
    Except Fault (Thread × Store) :=
  if t.Finished then return (t, s)
  else do
    let x ← m.step program t.registers s
    return (t.next x, x.store)

end Machine

/-- The turns of all programs of a tick on their way. -/
structure Race where
  store : Store
  threads : Nat → Thread

namespace Race

def advance (m : Machine) (x : Race) (program : Nat) : Except Fault Race := do
  let (t, s) ← m.advance program (x.threads program) x.store
  return ⟨s, Function.update x.threads program t⟩

/-- Lets the programs execute single instructions in the order of the list. -/
def play (m : Machine) (order : List Nat) (x : Race) : Except Fault Race :=
  order.foldlM (advance m) x

end Race

namespace World

/-- One tick in the given mode, in the order of the programs. -/
def tickIn (w : World) : Mode → Except Fault (TickStats × World)
  | .step => w.step
  | .run => w.run

/-- The most instructions that a program executes in one tick. -/
def budget (w : World) : Mode → Except Fault Nat
  | .step => return 1
  | .run => w.config.exec.iterationLimit w.config.tapeLength

/-- All turns of a tick at their beginning. -/
def race (w : World) (mode : Mode) (budget : Nat) : Race where
  store := w.store
  threads program :=
    match w.bank.get program with
    | .ok r => .fresh budget (mode.initial r)
    | .error _ => .fresh 0 .start

/-- Begins a tick and lets the programs execute single instructions in the order
of the list. -/
def interleave (w : World) (mode : Mode) (order : List Nat) : Except Fault Race := do
  let budget ← w.budget mode
  Race.play w.machine order (w.race mode budget)

def Settled (w : World) (x : Race) : Prop := ∀ p < w.bank.size, (x.threads p).Finished

/-- The world after a tick whose turns are over. -/
def settle (w : World) (x : Race) : World :=
  { w with
    store := x.store
    bank := { w.bank with
      triples := Array.ofFn fun p : Fin w.bank.size => (x.threads p).registers }
    ticks := w.ticks + 1 }

end World

/-! ## Every order stays on the tape -/

namespace Machine

theorem advance_of_finished {m : Machine} {t : Thread} (program : Nat) (s : Store)
    (h : t.Finished) : m.advance program t s = .ok (t, s) := if_pos h

theorem advance_of_step {m : Machine} {program : Nat} {t : Thread} {s : Store} {x : Stepped}
    (h : ¬t.Finished) (hstep : m.step program t.registers s = .ok x) :
    m.advance program t s = .ok (t.next x, x.store) := by
  rw [advance, if_neg h, hstep]
  rfl

theorem advance_ok {m : Machine} {program : Nat} {t : Thread} {s : Store} (hfit : m.Fits s)
    (hp : ¬t.Finished → program < s.programs) (hr : t.registers.Within s.tapeLength) :
    ∃ t' s', m.advance program t s = .ok (t', s') ∧ t'.registers.Within s.tapeLength ∧
      s'.SameShape s ∧ (t.Finished → t' = t) := by
  by_cases h : t.Finished
  · exact ⟨t, s, advance_of_finished program s h, hr, .refl s, fun _ => rfl⟩
  · obtain ⟨x, hstep, hr', hshape⟩ := step_ok hfit (hp h) hr
    exact ⟨_, _, advance_of_step h hstep, hr', hshape, fun h' => absurd h' h⟩

end Machine

namespace Race

/-- The store has the shape of `s₀`, every register is on the tape, and only
programs of `s₀` are on their way. -/
structure InRange (x : Race) (s₀ : Store) : Prop where
  shape : x.store.SameShape s₀
  within : ∀ p, (x.threads p).registers.Within s₀.tapeLength
  live : ∀ p, ¬(x.threads p).Finished → p < s₀.programs

theorem advance_eq_ok {m : Machine} {x : Race} {p : Nat} {t : Thread} {s : Store}
    (h : m.advance p (x.threads p) x.store = .ok (t, s)) :
    ∃ x', x.advance m p = .ok x' ∧ x'.store = s ∧ x'.threads p = t ∧
      ∀ q, q ≠ p → x'.threads q = x.threads q := by
  refine ⟨⟨s, Function.update x.threads p t⟩, by rw [advance, h]; rfl, rfl, ?_, fun q hq => ?_⟩
  · exact Function.update_self ..
  · exact Function.update_of_ne hq ..

theorem advance_ok {m : Machine} {s₀ : Store} {x : Race} (hfit : m.Fits s₀) (hx : x.InRange s₀)
    (p : Nat) : ∃ x', x.advance m p = .ok x' ∧ x'.InRange s₀ := by
  have hwithin := hx.within p
  rw [← hx.shape.tapeLength_eq] at hwithin
  obtain ⟨t, s, hadvance, hr, hshape, hkeep⟩ := Machine.advance_ok (hfit.of_sameShape hx.shape)
    (fun h => hx.shape.programs_eq ▸ hx.live p h) hwithin
  rw [hx.shape.tapeLength_eq] at hr
  obtain ⟨x', hx', rfl, rfl, hothers⟩ := advance_eq_ok hadvance
  refine ⟨x', hx', hshape.trans hx.shape, fun q => ?_, fun q hlive => ?_⟩
  · by_cases hq : q = p
    · exact hq ▸ hr
    · exact hothers q hq ▸ hx.within q
  · by_cases hq : q = p
    · subst hq
      exact hx.live q fun hfinished => hlive (hkeep hfinished ▸ hfinished)
    · exact hx.live q (hothers q hq ▸ hlive)

private theorem play_ok {m : Machine} {s₀ : Store} {x : Race} (hfit : m.Fits s₀) (hx : x.InRange s₀)
    (order : List Nat) : ∃ x', x.play m order = .ok x' ∧ x'.InRange s₀ := by
  induction order generalizing x with
  | nil => exact ⟨x, rfl, hx⟩
  | cons p order ih =>
    obtain ⟨x', hadvance, hx'⟩ := advance_ok hfit hx p
    obtain ⟨x'', hrest, hx''⟩ := ih hx'
    refine ⟨x'', ?_, hx''⟩
    rw [play, List.foldlM_cons, hadvance]
    exact hrest

end Race

namespace World

theorem budget_ok {w : World} (h : w.Sound) (mode : Mode) :
    ∃ budget, w.budget mode = .ok budget := by
  cases mode with
  | step => exact ⟨1, rfl⟩
  | run => exact iterationLimit_ok h

theorem race_threads {w : World} {p : Nat} {r : Registers} (mode : Mode) (budget : Nat)
    (h : w.bank.get p = .ok r) :
    (w.race mode budget).threads p = .fresh budget (mode.initial r) := by
  simp only [race, h]

theorem race_inRange {w : World} (h : w.Sound) (mode : Mode) (budget : Nat) :
    (w.race mode budget).InRange w.store where
  shape := .refl _
  within p := by
    have hstart := Registers.within_start w.store.tapeLength_pos
    simp only [race]
    split
    · rename_i r hr
      cases mode with
      | step => exact h.tapeLength_eq ▸ h.within p r hr
      | run => exact hstart
    · exact hstart
  live p hlive := by
    simp only [race] at hlive
    split at hlive
    · rename_i r hr
      exact h.programs_eq ▸ h.bank_size ▸ RegisterBank.lt_size_of_get hr
    · exact absurd (.inr rfl) hlive

/-- Single instructions of a tick succeed in every order. -/
theorem interleave_ok {w : World} (h : w.Sound) (mode : Mode) (order : List Nat) :
    ∃ x, w.interleave mode order = .ok x ∧ x.InRange w.store := by
  obtain ⟨budget, hbudget⟩ := budget_ok h mode
  rw [interleave, hbudget]
  exact Race.play_ok h.fits (race_inRange h mode budget) order

theorem settle_sound {w : World} {x : Race} (h : w.Sound) (hx : x.InRange w.store) :
    (w.settle x).Sound where
  valid := h.valid
  torus_size := h.torus_size
  programs_eq := hx.shape.programs_eq.trans h.programs_eq
  bank_size := Array.size_ofFn.trans h.bank_size
  tapeLength_eq := hx.shape.tapeLength_eq.trans h.tapeLength_eq
  bank_tapeLength := h.bank_tapeLength
  within p r hr := by
    obtain ⟨hp, rfl⟩ := Array.getElem?_eq_some_iff.1 (RegisterBank.get_eq_ok_iff.1 hr)
    simpa [settle, h.tapeLength_eq] using hx.within p

end World
end TapeTorus
