import Mathlib.Data.List.Basic
import TapeTorus.Proofs.TickAccounts

/-!
# Halted programs stay put

With persistent registers a program halts on the spot or not at all: the end of the tape
takes it back to the first cell.  Whether it halts depends on its registers and its own
tape alone, so that it halts again, whatever happens to other tapes.  If all programs halt
in a tick, nothing changes any more (`World.halted_stay_put`).
-/

namespace TapeTorus

namespace Machine

variable {m : Machine} {p : Nat} {r r' : Registers} {s t : Store} {l l' : List Executed}

/-- The program halts on the spot. -/
def Stuck (m : Machine) (p : Nat) (r : Registers) (s : Store) : Prop :=
  m.execute p r s = .ok none

theorem Stuck.step_eq (h : m.Stuck p r s) : m.step p r s = .ok ⟨.halted, r, s⟩ := by
  rw [step, show m.execute p r s = .ok none from h]
  rfl

/-- No registers and no cells but those of the own tape decide whether a program halts. -/
theorem Stuck.congr (h : m.Stuck p r s) (hown : s.AgreeOn p t) : m.Stuck p r t := by
  rw [Stuck, execute, bind_eq_ok_iff] at h
  obtain ⟨byte, hload, h⟩ := h
  rw [hown.load_eq] at hload
  rw [Stuck, execute, hload, ok_bind]
  split at h
  · rename_i hnul
    rw [if_pos hnul]
    rfl
  rename_i hnul
  rw [if_neg hnul]
  rw [bind_eq_ok_iff] at h
  obtain ⟨target, htarget, h⟩ := h
  rw [target_agree hown] at htarget
  rw [htarget, ok_bind]
  cases target with
  | none => rfl
  | some position =>
    rw [bind_eq_ok_iff] at h
    obtain ⟨z, -, h⟩ := h
    cases h

private theorem stuck_of_halted {x : Stepped} (hpersist : m.exec.persist = true)
    (h : m.step p r s = .ok x) (hx : x.outcome = .halted) : m.Stuck p r s := by
  rw [step, bind_eq_ok_iff] at h
  obtain ⟨e, he, h⟩ := h
  cases e with
  | none => exact he
  | some e =>
    obtain ⟨position, r', s'⟩ := e
    dsimp only at h
    rw [proceed, bind_eq_ok_iff] at h
    obtain ⟨next, -, h⟩ := h
    simp only [hpersist, if_true] at h
    split at h
    · obtain rfl := Except.ok.inj h
      cases hx
    · obtain rfl := Except.ok.inj h
      cases hx

private theorem stepped_of_halted {x : Stepped} (hpersist : m.exec.persist = true)
    (h : m.step p r s = .ok x) (hx : x.outcome = .halted) : x = ⟨.halted, r, s⟩ :=
  Except.ok.inj (h.symm.trans (stuck_of_halted hpersist h hx).step_eq)

/-- Instructions of a program, one after the other: each one finds the registers that the one
before has left. -/
inductive Steps (m : Machine) (p : Nat) : Registers → List Executed → Registers → Prop
  | nil (r : Registers) : Steps m p r [] r
  | cons {e : Executed} {l : List Executed} {r : Registers}
      (hstep : m.step p e.registers e.store = .ok e.result)
      (hrest : Steps m p e.result.registers l r) : Steps m p e.registers (e :: l) r

private theorem Steps.of_append (h : m.Steps p r (l ++ l') r') :
    ∃ r₁, m.Steps p r l r₁ ∧ m.Steps p r₁ l' r' := by
  induction l generalizing r with
  | nil => exact ⟨r, .nil r, h⟩
  | cons e l ih =>
    cases h with
    | cons hstep hrest =>
      obtain ⟨r₁, hl, hl'⟩ := ih hrest
      exact ⟨r₁, .cons hstep hl, hl'⟩

/-- A program that is stuck on a tape is so as long as it finds that tape. -/
theorem Steps.stuck (h : m.Steps p r l r') (hstuck : m.Stuck p r s)
    (hown : ∀ e ∈ l, e.store.AgreeOn p s) :
    ∀ e ∈ l, e.registers = r ∧ e.result = ⟨.halted, r, e.store⟩ := by
  induction h with
  | nil => simp
  | @cons e l _ hstep _ ih =>
    obtain ⟨hfirst, hrest⟩ := List.forall_mem_cons.1 hown
    have hresult := Except.ok.inj (hstep.symm.trans (hstuck.congr hfirst.symm).step_eq)
    refine List.forall_mem_cons.2 ⟨⟨rfl, hresult⟩, ?_⟩
    rw [hresult] at ih
    exact ih hstuck hrest

theorem Steps.halted (hpersist : m.exec.persist = true) {before during after : List Executed}
    {e₀ : Executed} (h : m.Steps p r (before ++ e₀ :: during ++ after) r')
    (hhalted : e₀.result.outcome = .halted) (hown : ∀ e ∈ during, e.store.AgreeOn p e₀.store) :
    ∀ e ∈ e₀ :: during, e.registers = e₀.registers ∧
      e.result = ⟨.halted, e₀.registers, e.store⟩ := by
  obtain ⟨_, h, -⟩ := h.of_append
  obtain ⟨_, -, h⟩ := h.of_append
  cases h with
  | cons hstep hrest =>
    have hresult := stepped_of_halted hpersist hstep hhalted
    refine List.forall_mem_cons.2 ⟨⟨rfl, hresult⟩, ?_⟩
    rw [hresult] at hrest
    exact hrest.stuck (stuck_of_halted hpersist hstep hhalted) hown

end Machine

namespace Race

variable {m : Machine} {x y : Race} {l : List Executed}

/-- Every turn that is not over is stuck. -/
def Stuck (m : Machine) (x : Race) : Prop :=
  ∀ p, ¬(x.threads p).Finished → m.Stuck p (x.threads p).registers x.store

theorem Stuck.update (h : x.Stuck m) (p : Nat) {t : Thread} (ht : t.Finished) :
    Race.Stuck m ⟨x.store, Function.update x.threads p t⟩ := by
  intro q hq
  by_cases hqp : q = p
  · subst hqp
    dsimp only at hq
    rw [Function.update_self] at hq
    exact absurd ht hq
  · dsimp only at hq ⊢
    rw [Function.update_of_ne hqp] at hq ⊢
    exact h q hq

private theorem Trace.stuck (h : x.Trace m l y) (hx : x.Stuck m) :
    y.store = x.store ∧ ∀ e ∈ l, e.result = ⟨.halted, e.registers, x.store⟩ := by
  induction h with
  | nil => exact ⟨rfl, by simp⟩
  | @cons x z p y l hlive hstep _ ih =>
    obtain rfl := Except.ok.inj (hstep.symm.trans (hx p hlive).step_eq)
    obtain ⟨hstore, hl⟩ := ih (hx.update p (.inl rfl))
    exact ⟨hstore, List.forall_mem_cons.2 ⟨rfl, hl⟩⟩

/-- Programs that halt where registers persist change no tape. -/
theorem Trace.halted (hpersist : m.exec.persist = true) (h : x.Trace m l y)
    (hl : ∀ e ∈ l, e.result.outcome = .halted) :
    y.store = x.store ∧ ∀ e ∈ l, e.store = x.store := by
  induction h with
  | nil => exact ⟨rfl, by simp⟩
  | @cons x z p y l _ hstep _ ih =>
    obtain ⟨hfirst, hrest⟩ := List.forall_mem_cons.1 hl
    obtain rfl := Machine.stepped_of_halted hpersist hstep hfirst
    obtain ⟨hstore, hl⟩ := ih hrest
    exact ⟨hstore, List.forall_mem_cons.2 ⟨rfl, hl⟩⟩

end Race

namespace World

variable {w w' : World} {k : TickRecord} {history : List TickRecord}

/-- Every program halts on the spot. -/
def Stuck (w : World) : Prop :=
  ∀ p r, w.bank.get p = .ok r → w.machine.Stuck p r w.store

/-- Ticks in which every program executes one instruction, one after the other. -/
inductive StepHistory : World → List TickRecord → World → Prop
  | nil (w : World) : StepHistory w [] w
  | cons {w v w' : World} {k : TickRecord} {l : List TickRecord} (htick : w.TickTrace .step k v)
      (hrest : StepHistory v l w') : StepHistory w (k :: l) w'

/-- A step tick reports that all programs have halted if all its instructions have. -/
theorem TickTrace.halted_iff (h : w.Sound) (htick : w.TickTrace .step k w') :
    k.stats.halted = w.bank.size ↔ ∀ e ∈ k.trace, e.result.outcome = .halted := by
  obtain ⟨-, -, -, -, hrange⟩ := htick.inRange h
  have hcount := List.countP_eq_length (l := List.range w.bank.size) (p := k.halts)
  rw [List.length_range] at hcount
  rw [htick.halted_eq, hcount]
  constructor
  · intro hall e he
    have hp : e.program < w.bank.size := by
      rw [h.bank_size, ← h.programs_eq]
      exact (hrange e he).program_lt
    obtain ⟨r, hr⟩ := w.bank.get_ok hp
    obtain ⟨e', -, hown, -⟩ := htick.single hr
    have hmem : e ∈ k.own e.program := TickRecord.mem_own.2 ⟨he, rfl⟩
    rw [hown, List.mem_singleton] at hmem
    exact hmem ▸ (k.halts_of_own hown).1 (hall _ (List.mem_range.2 hp))
  · intro hall p hp
    obtain ⟨r, hr⟩ := w.bank.get_ok (List.mem_range.1 hp)
    obtain ⟨e, he, hown, -⟩ := htick.single hr
    exact (k.halts_of_own hown).2 (hall e he)

theorem TickTrace.bank_eq (htick : w.TickTrace .step k w')
    (hkept : ∀ e ∈ k.trace, e.result.registers = e.registers) : w'.bank = w.bank := by
  have hshape : w'.bank.tapeLength = w.bank.tapeLength ∧ w'.bank.size = w.bank.size := by
    obtain ⟨-, -, -, -, -, rfl, -⟩ := htick
    exact ⟨rfl, Array.size_ofFn⟩
  refine RegisterBank.eq_of_get hshape.1 hshape.2 fun p hp => ?_
  obtain ⟨r, hr⟩ := w.bank.get_ok (hshape.2 ▸ hp)
  obtain ⟨e, he, -, hregisters, -, hget⟩ := htick.single hr
  rw [hget, hr, hkept e he, hregisters]

private theorem TickTrace.machine_eq {mode : Mode} (htick : w.TickTrace mode k w') :
    w'.machine = w.machine := by
  obtain ⟨-, -, -, -, -, rfl, -⟩ := htick
  rfl

/-! ## Worlds in which all programs are stuck -/

private theorem Stuck.of_eq (h : w.Stuck) (hmachine : w'.machine = w.machine)
    (hstore : w'.store = w.store) (hbank : w'.bank = w.bank) : w'.Stuck := by
  intro p r hr
  rw [hmachine, hstore]
  exact h p r (hbank ▸ hr)

theorem Stuck.tick (h : w.Sound) (hstuck : w.Stuck) (htick : w.TickTrace .step k w') :
    w'.store = w.store ∧ w'.bank = w.bank ∧ k.stats.halted = w.bank.size := by
  have hresults : w'.store = w.store ∧
      ∀ e ∈ k.trace, e.result = ⟨.halted, e.registers, w.store⟩ := by
    obtain ⟨budget, x, -, htrace, -, rfl, -⟩ := htick
    refine htrace.stuck fun p hlive => ?_
    cases hr : w.bank.get p with
    | ok r =>
      rw [race_threads .step budget hr]
      exact hstuck p r hr
    | error fault =>
      simp only [race, hr] at hlive
      exact absurd (.inr rfl) hlive
  obtain ⟨hstore, hresults⟩ := hresults
  refine ⟨hstore, htick.bank_eq fun e he => by rw [hresults e he], ?_⟩
  exact (htick.halted_iff h).2 fun e he => by rw [hresults e he]

/-- Where registers persist, all programs are stuck once they all halt in a tick, and that
tick has changed nothing. -/
theorem TickTrace.stuck (h : w.Sound) (hpersist : w.config.exec.persist = true)
    (htick : w.TickTrace .step k w') (hhalted : k.stats.halted = w.bank.size) :
    w'.store = w.store ∧ w'.bank = w.bank ∧ w'.Stuck := by
  have hall := (htick.halted_iff h).1 hhalted
  obtain ⟨-, -, -, -, hrange⟩ := htick.inRange h
  have hstores : w'.store = w.store ∧ ∀ e ∈ k.trace, e.store = w.store := by
    obtain ⟨budget, x, -, htrace, -, rfl, -⟩ := htick
    exact htrace.halted hpersist hall
  have hbank : w'.bank = w.bank := htick.bank_eq fun e he => by
    rw [Machine.stepped_of_halted hpersist (hrange e he).step_eq (hall e he)]
  have hstuck : w.Stuck := by
    intro p r hr
    obtain ⟨e, he, -, -, hstep, -⟩ := htick.single hr
    rw [← hstores.2 e he]
    exact Machine.stuck_of_halted hpersist hstep (hall e he)
  exact ⟨hstores.1, hbank, hstuck.of_eq htick.machine_eq hstores.1 hbank⟩

private theorem StepHistory.stuck (hhistory : w.StepHistory history w') (h : w.Sound)
    (hstuck : w.Stuck) :
    w'.store = w.store ∧ w'.bank = w.bank ∧ ∀ k ∈ history, k.stats.halted = w.bank.size := by
  induction hhistory with
  | nil => exact ⟨rfl, rfl, by simp⟩
  | @cons w v w' k l htick _ ih =>
    obtain ⟨hstore, hbank, hhalted⟩ := hstuck.tick h htick
    obtain ⟨hstore', hbank', hl⟩ :=
      ih (htick.inRange h).1 (hstuck.of_eq htick.machine_eq hstore hbank)
    rw [hbank] at hl
    exact ⟨hstore'.trans hstore, hbank'.trans hbank, List.forall_mem_cons.2 ⟨hhalted, hl⟩⟩

/-- The instructions of one program in step ticks follow one another. -/
theorem StepHistory.steps (hhistory : w.StepHistory history w') {p : Nat} {r : Registers}
    (hr : w.bank.get p = .ok r) :
    ∃ own r', history.map (·.own p) = own.map ([·]) ∧ w.machine.Steps p r own r' ∧
      w'.bank.get p = .ok r' := by
  induction hhistory generalizing r with
  | nil => exact ⟨[], r, rfl, .nil r, hr⟩
  | @cons w v w' k l htick _ ih =>
    obtain ⟨e, -, hown, rfl, hstep, hget⟩ := htick.single hr
    obtain ⟨own, r', hl, hsteps, hr'⟩ := ih hget
    rw [htick.machine_eq] at hsteps
    refine ⟨e :: own, r', ?_, .cons hstep hsteps, hr'⟩
    rw [List.map_cons, List.map_cons, hown, hl]

/-! ## Halting for good -/

/-- Step ticks of a reachable world with persistent registers.  If all programs halt in one,
it leaves tapes and registers as they are, and so do all step ticks after it, in each of
which all programs halt again.  A single program that halts does so again in every later
tick, with the same registers, as long as it finds its own tape as it was, whatever happens
to the other tapes. -/
theorem halted_stay_put {w : World} (h : w.Reachable) (hpersist : w.config.exec.persist = true) :
    (∃ k w', w.step = .ok (k.stats, w') ∧ k.InOrder ∧ w.TickTrace .step k w') ∧
    (∀ k w', w.TickTrace .step k w' → k.stats.halted = w.bank.size →
      (w'.store = w.store ∧ w'.bank = w.bank) ∧
      ∀ history w'', w'.StepHistory history w'' →
        (w''.store = w.store ∧ w''.bank = w.bank) ∧
          ∀ k' ∈ history, k'.stats.halted = w.bank.size) ∧
    (∀ history w', w.StepHistory history w' → ∀ p < w.bank.size, ∃ own : List Executed,
      history.map (·.own p) = own.map ([·]) ∧
      ∀ before e₀ during after, own = before ++ e₀ :: during ++ after →
        e₀.result.outcome = .halted → (∀ e ∈ during, e.store.AgreeOn p e₀.store) →
          ∀ e ∈ e₀ :: during, e.registers = e₀.registers ∧
            e.result = ⟨.halted, e₀.registers, e.store⟩) := by
  have hsound := h.sound
  refine ⟨exists_tickTrace hsound .step, fun k w' htick hhalted => ?_,
    fun history w' hhistory p hp => ?_⟩
  · obtain ⟨hstore, hbank, hstuck⟩ := htick.stuck hsound hpersist hhalted
    refine ⟨⟨hstore, hbank⟩, fun history w'' hhistory => ?_⟩
    obtain ⟨hstore', hbank', hall⟩ := hhistory.stuck (htick.inRange hsound).1 hstuck
    exact ⟨⟨hstore'.trans hstore, hbank'.trans hbank⟩, hbank ▸ hall⟩
  · obtain ⟨r, hr⟩ := w.bank.get_ok hp
    obtain ⟨own, r', hown, hsteps, -⟩ := hhistory.steps hr
    refine ⟨own, hown, fun before e₀ during after hsplit hhalted hagree => ?_⟩
    rw [hsplit] at hsteps
    exact hsteps.halted hpersist hhalted hagree

/-- Two programs, the first of which halts on its zero byte, while the second one counts. -/
def halting (ip : UInt32) (count : UInt8) : World where
  config := ⟨3, 2, 1, ⟨true, true, none⟩, none⟩
  torus := .couple
  store := .couple 0 7 0 count 43 2
  bank := ⟨3, #[.start, ⟨ip, 0, 0⟩]⟩
  ticks := ip.toNat

/-- The instruction of the first program. -/
def waiting (ip : UInt32) (count : UInt8) : Executed :=
  ⟨0, .start, (halting ip count).store, .halted, .start, (halting ip count).store⟩

/-- The tick in which the second program executes the instruction at `ip`. -/
def ticking (ip : UInt32) (count : UInt8) : TickRecord where
  trace := [waiting ip count, ⟨1, ⟨ip, 0, 0⟩, (halting ip count).store,
    .running, ⟨ip + 1, 0, 0⟩, (halting ip (count + 1)).store⟩]
  stats := ⟨2, 1, 0⟩

private theorem history_halting :
    (halting 0 43).StepHistory [ticking 0 43, ticking 1 44] (halting 2 45) := by
  have hfirst : (halting 0 43).TickTrace .step (ticking 0 43) (halting 1 44) := by
    refine ⟨1, _, rfl, .cons (by decide) rfl (.cons (by decide) rfl (.nil _)), ?_, rfl, rfl⟩
    show ∀ p < 2, _
    decide
  have hsecond : (halting 1 44).TickTrace .step (ticking 1 44) (halting 2 45) := by
    refine ⟨1, _, rfl, .cons (by decide) rfl (.cons (by decide) rfl (.nil _)), ?_, rfl, rfl⟩
    show ∀ p < 2, _
    decide
  exact .cons hfirst (.cons hsecond (.nil _))

/-- A tick of a world of zero bytes, and two in which the second program goes on. -/
theorem halted_stay_put_halting :
    (∃ w k w', ofConfig (halting 0 43).config = .ok w ∧ w.TickTrace .step k w' ∧
      k.stats.halted = 2 ∧ w'.store = w.store ∧
        ∀ k' w'', w'.TickTrace .step k' w'' → w''.store = w.store ∧ k'.stats.halted = 2) ∧
    (halting 0 43).Reachable ∧
      (halting 0 43).StepHistory [ticking 0 43, ticking 1 44] (halting 2 45) ∧
        (waiting 1 44).registers = .start ∧
          (waiting 1 44).result = ⟨.halted, .start, (waiting 1 44).store⟩ := by
  constructor
  · obtain ⟨w, hbuilt, hpersist, hsize, hstats⟩ : ∃ w, ofConfig (halting 0 43).config = .ok w ∧
        w.config.exec.persist = true ∧ w.bank.size = 2 ∧
          w.step.map Prod.fst = .ok ⟨2, 2, 0⟩ := ⟨_, rfl, rfl, rfl, rfl⟩
    obtain ⟨⟨k, w', htick, -, htrace⟩, hall, -⟩ := halted_stay_put (.ofConfig hbuilt) hpersist
    rw [htick] at hstats
    have hstats : k.stats = ⟨2, 2, 0⟩ := Except.ok.inj hstats
    have hhalted : k.stats.halted = 2 := by rw [hstats]
    obtain ⟨⟨hstore, -⟩, hlater⟩ := hall k w' htrace (hhalted.trans hsize.symm)
    refine ⟨w, k, w', hbuilt, htrace, hhalted, hstore, fun k' w'' htick' => ?_⟩
    obtain ⟨⟨hstore', -⟩, hhalted'⟩ := hlater [k'] w'' (.cons htick' (.nil w''))
    exact ⟨hstore', hsize ▸ hhalted' k' List.mem_cons_self⟩
  · have hbytes : (#[0, 7, 0, 43, 43, 2] : Array UInt32).map UInt32.toUInt8 =
        #[0, 7, 0, 43, 43, 2] := by simp
    have hbuilt : ofBuffers (halting 0 43).config #[0, 7, 0, 43, 43, 2] none =
        .ok (halting 0 43) := by
      simp only [ofBuffers, Store.ofCells, Store.writeCells, hbytes]
      rfl
    obtain ⟨own, hown, hstays⟩ :=
      (halted_stay_put (.ofBuffers hbuilt) rfl).2.2 _ _ history_halting 0 (by decide)
    obtain rfl : [waiting 0 43, waiting 1 44] = own :=
      List.map_injective_iff.2 List.singleton_injective hown
    have hagree : ∀ e ∈ [waiting 1 44], e.store.AgreeOn 0 (waiting 0 43).store := by
      intro e he
      obtain rfl := List.mem_singleton.1 he
      exact ⟨⟨rfl, rfl⟩, by decide⟩
    have hwaits := hstays [] (waiting 0 43) [waiting 1 44] [] rfl rfl hagree
    exact ⟨.ofBuffers hbuilt, history_halting, hwaits (waiting 1 44) (by simp)⟩

end World
end TapeTorus
