import TapeTorus.Proofs.Loops.Structured
import TapeTorus.Proofs.RunLog

/-!
# Back jumps bound the length of runs

Where registers do not persist, the instruction pointer moves up with every instruction
that does not jump back, and the end of the tape halts the program.  Between two back jumps
there are therefore no more instructions than the tape has cells, whatever a program makes
of its own code (`Machine.instructions_le_backJumps`).
-/

namespace TapeTorus

open TapeTorus.Bracket

/-- The instruction repeats a loop: it is a closing bracket with a partner, and the cell
under head 0 is not zero. -/
structure Executed.JumpsBack (e : Executed) : Prop where
  symbol_eq : e.symbol = ']'
  cell_ne : e.store.cell e.program e.registers.head0.toNat ≠ 0
  partner : (matchBackward? (e.store.cell e.program) e.registers.ip.toNat).isSome

instance (e : Executed) : Decidable e.JumpsBack :=
  decidable_of_iff (e.symbol = ']' ∧ e.store.cell e.program e.registers.head0.toNat ≠ 0 ∧
      (matchBackward? (e.store.cell e.program) e.registers.ip.toNat).isSome)
    ⟨fun ⟨hsymbol, hcell, hpartner⟩ => ⟨hsymbol, hcell, hpartner⟩,
      fun ⟨hsymbol, hcell, hpartner⟩ => ⟨hsymbol, hcell, hpartner⟩⟩

namespace Machine

variable {m : Machine} {program : Nat} {r : Registers} {s : Store}

private theorem target_lt_ip (hp : program < s.programs) (hr : r.Within s.tapeLength)
    {i : Option Instruction} {position : Nat} (h : target program r s i = .ok (some position))
    (hlt : position < r.ip.toNat) :
    i = some .loopEnd ∧ s.cell program r.head0.toNat ≠ 0 ∧
      matchBackward? (s.cell program) r.ip.toNat = some position := by
  by_cases hstart : i = some .loopStart
  · subst hstart
    rw [target_loopStart hp hr, Except.ok.injEq] at h
    split at h
    · have hafter := (matchForward?_eq_some_iff.1 h).after
      omega
    · rw [Option.some.injEq] at h
      omega
  by_cases hend : i = some .loopEnd
  · subst hend
    rw [target_loopEnd hp hr, Except.ok.injEq] at h
    split at h
    · rw [Option.some.injEq] at h
      omega
    · rename_i hcell
      exact ⟨rfl, hcell, h⟩
  · rw [target_of_ne hstart hend, Except.ok.injEq, Option.some.injEq] at h
    omega

private theorem ip_of_running {x : Stepped} (hpersist : m.exec.persist = false)
    (hlength : s.tapeLength ≤ 2 ^ 32) (hp : program < s.programs) (hr : r.Within s.tapeLength)
    (h : m.step program r s = .ok x) (hx : x.outcome = .running) :
    ∃ position, x.registers.ip.toNat = position + 1 ∧
      target program r s (Instruction.ofByte? (s.cell program r.ip.toNat)) =
        .ok (some position) := by
  rw [step, bind_eq_ok_iff] at h
  obtain ⟨e, he, h⟩ := h
  obtain rfl | ⟨position, r', s', rfl, htarget, hact⟩ := execute_cases hp hr.1 he
  · obtain rfl := Except.ok.inj h
    cases hx
  obtain ⟨hposition, -, hshape⟩ := execute_within hlength hp hr he
  rw [← hshape.tapeLength_eq] at hlength hposition
  dsimp only at h
  rw [proceed_eq_ok r' hposition, Except.ok.injEq] at h
  refine ⟨position, ?_, htarget⟩
  by_cases hlast : position + 1 = s'.tapeLength
  · rw [if_pos hlast] at h
    subst h
    simp [hpersist] at hx
  · rw [if_neg hlast] at h
    subst h
    exact Registers.toNat_ofNat (by omega)

private theorem step_of_again {j : Nat} (hp : program < s.programs) (hr : r.Within s.tapeLength)
    (hlength : s.tapeLength ≤ 2 ^ 32) (hsymbol : s.symbol program r.ip.toNat = ']')
    (hcell : s.cell program r.head0.toNat ≠ 0)
    (hj : matchBackward? (s.cell program) r.ip.toNat = some j) :
    m.step program r s = .ok ⟨.running, { r with ip := .ofNat (j + 1) }, s⟩ ∧
      (UInt32.ofNat (j + 1)).toNat ≤ r.ip.toNat := by
  have hbefore := (matchBackward?_eq_some_iff.1 hj).before
  have hip := hr.1
  have hexec : m.Executes program r s (some .loopEnd) := executes_of_symbol hp hr.1 hsymbol
  have htarget := target_loopEnd hp hr
  rw [if_neg hcell, hj] at htarget
  rw [hexec.step_of_act htarget rfl, proceed_eq_ok r (by omega), if_neg (by omega),
    Registers.toNat_ofNat (by omega)]
  exact ⟨rfl, hbefore⟩

end Machine

namespace Executed

variable {m : Machine} {e : Executed} {s₀ : Store}

/-- Where registers do not persist, a program that goes on without a jump back gets on. -/
theorem InRange.ip_lt (h : e.InRange m s₀) (hpersist : m.exec.persist = false)
    (hlength : s₀.tapeLength ≤ 2 ^ 32) (hrunning : e.result.outcome = .running)
    (hforward : ¬e.JumpsBack) : e.registers.ip.toNat < e.result.registers.ip.toNat := by
  rw [← h.shape.tapeLength_eq] at hlength
  obtain ⟨position, hip, htarget⟩ :=
    Machine.ip_of_running hpersist hlength h.lt_programs h.on_tape h.step_eq hrunning
  by_contra hle
  obtain ⟨hcode, hcell, hmatch⟩ :=
    Machine.target_lt_ip h.lt_programs h.on_tape htarget (by omega)
  refine hforward ⟨?_, hcell, by rw [hmatch]; rfl⟩
  rw [symbol, Store.symbol, Instruction.ofByte?_eq_some_iff.1 hcode, Instruction.char_toByte]
  rfl

/-- The instructions that repeat a loop are the closing brackets after which the program
goes on no further than it was. -/
theorem InRange.jumpsBack_iff (h : e.InRange m s₀) (hpersist : m.exec.persist = false)
    (hlength : s₀.tapeLength ≤ 2 ^ 32) :
    e.JumpsBack ↔ e.symbol = ']' ∧ e.result.outcome = .running ∧
      e.result.registers.ip.toNat ≤ e.registers.ip.toNat := by
  constructor
  · rintro ⟨hsymbol, hcell, hpartner⟩
    rw [← h.shape.tapeLength_eq] at hlength
    obtain ⟨j, hj⟩ := Option.isSome_iff_exists.1 hpartner
    obtain ⟨hstep, hle⟩ :=
      Machine.step_of_again h.lt_programs h.on_tape hlength hsymbol hcell hj
    rw [Except.ok.inj (h.step_eq.symm.trans hstep)]
    exact ⟨hsymbol, rfl, hle⟩
  · rintro ⟨-, hrunning, hle⟩
    by_contra hforward
    exact absurd (h.ip_lt hpersist hlength hrunning hforward) (by omega)

end Executed

namespace Machine

variable {m : Machine} {program budget done : Nat} {r : Registers} {s : Store} {t : Turn}
  {log : List Executed}

/-- The instructions of a run and the position that it begins at, together with the one that
the bound keeps from being executed, fill as many tapes as there are stretches without a
jump back. -/
theorem instructions_le_stretches (hpersist : m.exec.persist = false)
    (hlength : s.tapeLength ≤ 2 ^ 32) (hp : program < s.programs) (hr : r.Within s.tapeLength)
    (h : m.runFrom program budget done r s = .ok t)
    (hlog : m.runLog program budget r s = .ok log) :
    log.length + t.stats.exhausted + r.ip.toNat ≤
      s.tapeLength * (log.countP (·.JumpsBack) + 1) := by
  have hip := hr.1
  induction budget generalizing done r s log with
  | zero =>
    obtain rfl := Except.ok.inj h
    obtain rfl := Except.ok.inj hlog
    simp only [List.length_nil, List.countP_nil]
    omega
  | succ budget ih =>
    obtain ⟨x, hstep, ⟨-, rfl, rfl⟩ | ⟨hx, rest, rfl, hrest, hrestLog⟩⟩ := run_cases h hlog
    · have hone : s.tapeLength ≤ s.tapeLength *
          ([(⟨program, r, s, x⟩ : Executed)].countP (·.JumpsBack) + 1) :=
        Nat.le_mul_of_pos_right _ (Nat.succ_pos _)
      simp only [List.length_singleton]
      omega
    · have hin : Executed.InRange ⟨program, r, s, x⟩ m s := ⟨hp, hr, .refl s, hstep⟩
      obtain ⟨hr', hshape⟩ := step_within hlength hp hr hstep
      rw [← hshape.tapeLength_eq] at hlength hip hr' ⊢
      have hfurther := ih hlength (hshape.programs_eq ▸ hp) hr' hrest hrestLog hr'.1
      rw [List.length_cons]
      by_cases hback : Executed.JumpsBack ⟨program, r, s, x⟩
      · rw [List.countP_cons_of_pos (by simpa using hback), Nat.mul_add, Nat.mul_one]
        omega
      · have hforward := hin.ip_lt hpersist (hshape.tapeLength_eq ▸ hlength) hx hback
        dsimp only at hforward
        rw [List.countP_cons_of_neg (by simpa using hback)]
        omega

/-- A run without persistent registers, in which the program jumps back `b` times, executes
no more than `b + 1` times as many instructions as the tape has cells.  Without a jump back
it halts if the limit allows for the length of the tape, and the limit that is set by default
stops no program that has jumped back less than three times.  The tape has at most `2 ^ 32` cells
(`Machine.Fits`), as those of every accepted configuration have. -/
theorem instructions_le_backJumps (m : Machine) (s : Store) (hfit : m.Fits s)
    (hpersist : m.exec.persist = false) {program : Nat} (hp : program < s.programs) (limit : Nat) :
    ∃ t log, m.runProgram program limit s = .ok t ∧ m.runLog program limit .start s = .ok log ∧
      (log.length = t.stats.instructions ∧ ∀ e ∈ log, e.JumpsBack ↔
        e.symbol = ']' ∧ e.result.outcome = .running ∧
          e.result.registers.ip.toNat ≤ e.registers.ip.toNat) ∧
      t.stats.instructions ≤ s.tapeLength * (log.countP (·.JumpsBack) + 1) ∧
      (log.countP (·.JumpsBack) = 0 → s.tapeLength ≤ limit →
        t.stats.halted = 1 ∧ t.stats.exhausted = 0) ∧
      (Exec.defaultIterationLimit s.tapeLength = .ok limit →
        limit = max 256 (4 * s.tapeLength) ∧
          (t.stats.exhausted = 1 → 3 ≤ log.countP (·.JumpsBack))) := by
  have hlength := hfit.addressable
  have hwithin := Registers.within_start s.tapeLength_pos
  obtain ⟨t, ht, -⟩ := runFrom_ok hfit hp hwithin limit 0
  obtain ⟨log, hlog, hcount, -⟩ := exists_runLog ht
  rw [Nat.zero_add] at hcount
  have hbound := instructions_le_stretches hpersist hlength hp hwithin ht hlog
  have hstart : Registers.start.ip.toNat = 0 := rfl
  refine ⟨t, log, ht, hlog, ⟨hcount.symm, fun e he => ?_⟩, by omega, fun hnone hlimit => ?_,
    fun hdefault => ⟨Exec.defaultIterationLimit_eq hdefault, fun hexhausted => ?_⟩⟩
  · exact (runLog_inRange hlength hp (.refl s) hwithin ht hlog e he).jumpsBack_iff hpersist hlength
  · obtain hhalted | ⟨-, hexhausted, hfull⟩ := halted_or_exhausted ht
    · exact hhalted
    · rw [hnone] at hbound
      omega
  · obtain ⟨-, hzero⟩ | ⟨-, -, hfull⟩ := halted_or_exhausted ht
    · omega
    · have hlimit := Exec.defaultIterationLimit_eq hdefault
      have hpasses : 4 * s.tapeLength ≤ limit := hlimit ▸ Nat.le_max_right ..
      by_contra hfew
      have hstretches : s.tapeLength * (log.countP (·.JumpsBack) + 1) ≤ s.tapeLength * 3 :=
        Nat.mul_le_mul_left _ (by omega)
      omega

/-- The loop of the tape `<[-]` counts down from two, so that it is repeated once. -/
theorem instructions_le_backJumps_countdown :
    single.Fits .countdown ∧ ∃ t log, single.runProgram 0 20 .countdown = .ok t ∧
      single.runLog 0 20 .start .countdown = .ok log ∧ t.stats = ⟨8, 1, 0⟩ ∧
        log.countP (·.JumpsBack) = 1 ∧ t.stats.instructions ≤ 6 * (1 + 1) := by
  have hfit : single.Fits .countdown := ⟨rfl, by decide⟩
  obtain ⟨t, log, ht, hlog, -, hbound, -⟩ :=
    instructions_le_backJumps single .countdown hfit rfl (show 0 < 1 from Nat.one_pos) 20
  have hstats : (single.runProgram 0 20 .countdown).map Turn.stats = .ok ⟨8, 1, 0⟩ := rfl
  have hjumps : (single.runLog 0 20 .start .countdown).map
      (fun log => log.countP (·.JumpsBack)) = .ok 1 := rfl
  rw [ht] at hstats
  rw [hlog] at hjumps
  have hjumps : log.countP (·.JumpsBack) = 1 := Except.ok.inj hjumps
  exact ⟨hfit, t, log, ht, hlog, Except.ok.inj hstats, hjumps, hjumps ▸ hbound⟩

end Machine
end TapeTorus
