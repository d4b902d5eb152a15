import TapeTorus.Proofs.InstructionTable
import TapeTorus.Proofs.TickRange

/-!
# Logs of runs

The log of a run lists the instructions that it executes, each with the registers and the
tapes that it finds and with what it leaves behind.  A run that succeeds has a log, counts
its instructions and leaves what the last one leaves (`Machine.exists_runLog`).
-/

namespace TapeTorus

/-- An instruction that a program has executed. -/
structure Executed where
  program : Nat
  /-- The registers before the instruction. -/
  registers : Registers
  /-- The tapes before the instruction. -/
  store : Store
  result : Stepped

namespace Executed

/-- The character of the byte under the pointer. -/
def symbol (e : Executed) : Char := e.store.symbol e.program e.registers.ip.toNat

/-- The program has a tape in `s₀`, which its registers name cells of, and the step of the
machine has the result. -/
structure InRange (e : Executed) (m : Machine) (s₀ : Store) : Prop where
  program_lt : e.program < s₀.programs
  within : e.registers.Within s₀.tapeLength
  shape : e.store.SameShape s₀
  step_eq : m.step e.program e.registers e.store = .ok e.result

theorem InRange.lt_programs {e : Executed} {m : Machine} {s₀ : Store} (h : e.InRange m s₀) :
    e.program < e.store.programs :=
  h.shape.programs_eq ▸ h.program_lt

theorem InRange.on_tape {e : Executed} {m : Machine} {s₀ : Store} (h : e.InRange m s₀) :
    e.registers.Within e.store.tapeLength :=
  h.shape.tapeLength_eq ▸ h.within

/-- The registers and the tapes after some instructions, which begin with the given ones. -/
def after : List Executed → Registers × Store → Registers × Store
  | [], z => z
  | e :: log, _ => after log (e.result.registers, e.result.store)

end Executed

namespace Machine

/-- The instructions that a run executes. -/
def runLog (m : Machine) (program : Nat) :
    (budget : Nat) → Registers → Store → Except Fault (List Executed)
  | 0, _, _ => return []
  | budget + 1, r, s => do
    let x ← m.step program r s
    match x.outcome with
    | .halted => return [⟨program, r, s, x⟩]
    | .running => do
      let log ← m.runLog program budget x.registers x.store
      return ⟨program, r, s, x⟩ :: log

variable {m : Machine} {program budget done : Nat} {r : Registers} {s : Store} {x : Stepped}
  {t : Turn} {log : List Executed}

/-! ## One instruction more -/

theorem runFrom_of_halted (h : m.step program r s = .ok x) (hx : x.outcome = .halted) :
    m.runFrom program (budget + 1) done r s =
      .ok ⟨⟨done + 1, 1, 0⟩, x.registers, x.store⟩ := by
  obtain ⟨outcome, r', s'⟩ := x
  obtain rfl : outcome = .halted := hx
  rw [runFrom, h]
  rfl

theorem runFrom_of_running (h : m.step program r s = .ok x) (hx : x.outcome = .running) :
    m.runFrom program (budget + 1) done r s =
      m.runFrom program budget (done + 1) x.registers x.store := by
  obtain ⟨outcome, r', s'⟩ := x
  obtain rfl : outcome = .running := hx
  rw [runFrom, h]
  rfl

theorem runFrom_of_error {fault : Fault} (h : m.step program r s = .error fault) :
    m.runFrom program (budget + 1) done r s = .error fault := by
  rw [runFrom, h]
  rfl

theorem runLog_of_halted (h : m.step program r s = .ok x) (hx : x.outcome = .halted) :
    m.runLog program (budget + 1) r s = .ok [⟨program, r, s, x⟩] := by
  rw [runLog, h, ok_bind, hx]
  rfl

theorem runLog_of_running (h : m.step program r s = .ok x) (hx : x.outcome = .running)
    (hlog : m.runLog program budget x.registers x.store = .ok log) :
    m.runLog program (budget + 1) r s = .ok (⟨program, r, s, x⟩ :: log) := by
  rw [runLog, h, ok_bind, hx]
  dsimp only
  rw [hlog]
  rfl

private theorem exists_step_of_runFrom (h : m.runFrom program (budget + 1) done r s = .ok t) :
    ∃ x, m.step program r s = .ok x ∧
      (x.outcome = .halted ∧ t = ⟨⟨done + 1, 1, 0⟩, x.registers, x.store⟩ ∨
        x.outcome = .running ∧
          m.runFrom program budget (done + 1) x.registers x.store = .ok t) := by
  have hok := h
  rw [runFrom, bind_eq_ok_iff] at h
  obtain ⟨x, hstep, -⟩ := h
  refine ⟨x, hstep, ?_⟩
  cases hx : x.outcome with
  | halted =>
    rw [runFrom_of_halted hstep hx, Except.ok.injEq] at hok
    exact .inl ⟨rfl, hok.symm⟩
  | running => exact .inr ⟨rfl, runFrom_of_running hstep hx ▸ hok⟩

/-! ## Whole runs -/

theorem exists_runLog (h : m.runFrom program budget done r s = .ok t) :
    ∃ log, m.runLog program budget r s = .ok log ∧
      t.stats.instructions = done + log.length ∧
        (t.registers, t.store) = Executed.after log (r, s) := by
  induction budget generalizing done r s with
  | zero =>
    obtain rfl := Except.ok.inj h
    exact ⟨[], rfl, rfl, rfl⟩
  | succ budget ih =>
    obtain ⟨x, hstep, ⟨hx, rfl⟩ | ⟨hx, hrest⟩⟩ := exists_step_of_runFrom h
    · exact ⟨_, runLog_of_halted hstep hx, rfl, rfl⟩
    · obtain ⟨log, hlog, hcount, hafter⟩ := ih hrest
      refine ⟨_, runLog_of_running hstep hx hlog, ?_, hafter⟩
      rw [hcount, List.length_cons]
      omega

/-- The first instruction of a run that succeeds, and of its log. -/
theorem run_cases (h : m.runFrom program (budget + 1) done r s = .ok t)
    (hlog : m.runLog program (budget + 1) r s = .ok log) :
    ∃ x, m.step program r s = .ok x ∧
      (x.outcome = .halted ∧ t = ⟨⟨done + 1, 1, 0⟩, x.registers, x.store⟩ ∧
          log = [⟨program, r, s, x⟩] ∨
        x.outcome = .running ∧ ∃ rest, log = ⟨program, r, s, x⟩ :: rest ∧
          m.runFrom program budget (done + 1) x.registers x.store = .ok t ∧
            m.runLog program budget x.registers x.store = .ok rest) := by
  obtain ⟨x, hstep, ⟨hx, ht⟩ | ⟨hx, hrest⟩⟩ := exists_step_of_runFrom h
  · rw [runLog_of_halted hstep hx, Except.ok.injEq] at hlog
    exact ⟨x, hstep, .inl ⟨hx, ht, hlog.symm⟩⟩
  · obtain ⟨rest, hrestLog, -⟩ := exists_runLog hrest
    rw [runLog_of_running hstep hx hrestLog, Except.ok.injEq] at hlog
    exact ⟨x, hstep, .inr ⟨hx, rest, hlog.symm, hrest, hrestLog⟩⟩

theorem runLog_inRange {s₀ : Store} (hlength : s₀.tapeLength ≤ 2 ^ 32)
    (hp : program < s₀.programs) (hshape : s.SameShape s₀) (hr : r.Within s₀.tapeLength)
    (h : m.runFrom program budget done r s = .ok t)
    (hlog : m.runLog program budget r s = .ok log) : ∀ e ∈ log, e.InRange m s₀ := by
  induction budget generalizing done r s log with
  | zero =>
    obtain rfl := Except.ok.inj hlog
    simp
  | succ budget ih =>
    obtain ⟨x, hstep, ⟨-, -, rfl⟩ | ⟨-, rest, rfl, hrest, hrestLog⟩⟩ := run_cases h hlog
    · exact List.forall_mem_singleton.2 ⟨hp, hr, hshape, hstep⟩
    · refine List.forall_mem_cons.2 ⟨⟨hp, hr, hshape, hstep⟩, ?_⟩
      rw [← hshape.tapeLength_eq] at hlength hr
      rw [← hshape.programs_eq] at hp
      obtain ⟨hr', hshape'⟩ := step_within hlength hp hr hstep
      exact ih (hshape'.trans hshape) (hshape.tapeLength_eq ▸ hr') hrest hrestLog

/-- A run halts, or the bound stops it after as many instructions as it allows. -/
theorem halted_or_exhausted (h : m.runFrom program budget done r s = .ok t) :
    (t.stats.halted = 1 ∧ t.stats.exhausted = 0) ∨
      (t.stats.halted = 0 ∧ t.stats.exhausted = 1 ∧
        t.stats.instructions = done + budget) := by
  induction budget generalizing done r s with
  | zero =>
    obtain rfl := Except.ok.inj h
    exact .inr ⟨rfl, rfl, rfl⟩
  | succ budget ih =>
    obtain ⟨x, -, ⟨-, rfl⟩ | ⟨-, hrest⟩⟩ := exists_step_of_runFrom h
    · exact .inl ⟨rfl, rfl⟩
    · obtain hhalted | ⟨hhalted, hexhausted, hcount⟩ := ih hrest
      · exact .inl hhalted
      · exact .inr ⟨hhalted, hexhausted, by omega⟩

end Machine
end TapeTorus
