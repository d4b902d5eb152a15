import TapeTorus.Proofs.OrderIndependence
import TapeTorus.Proofs.RunLog

/-!
# Traces of ticks

A trace lists the instructions that the programs execute in a tick, one after the other,
each with the registers and the tapes that it finds and with what it leaves behind.  Ticks
in the order of the programs have traces, and so have those in every other order
(`World.exists_tickTrace`, `World.tickTrace_of_interleave`).  A trace tells what every
single program does (`Machine.Drives`).
-/

namespace TapeTorus

/-- The instructions of the trace lead from the first race to the second. -/
inductive Race.Trace (m : Machine) : Race → List Executed → Race → Prop
  | nil (x : Race) : Trace m x [] x
  | cons {x z : Race} {p : Nat} {y : Stepped} {l : List Executed}
      (hlive : ¬(x.threads p).Finished)
      (hstep : m.step p (x.threads p).registers x.store = .ok y)
      (hrest : Trace m ⟨y.store, Function.update x.threads p ((x.threads p).next y)⟩ l z) :
      Trace m x (⟨p, (x.threads p).registers, x.store, y⟩ :: l) z

/-- The instructions of a program lead its turn from `t` to `t'`: each one finds the registers
that the one before has left.  What other programs do to the tapes in between is open. -/
inductive Machine.Drives (m : Machine) : Thread → List Executed → Thread → Prop
  | nil (t : Thread) : Drives m t [] t
  | cons {t t' : Thread} {e : Executed} {l : List Executed} (hlive : ¬t.Finished)
      (hregisters : e.registers = t.registers)
      (hstep : m.step e.program e.registers e.store = .ok e.result)
      (hrest : Drives m (t.next e.result) l t') : Drives m t (e :: l) t'

/-- What is known of a tick. -/
structure TickRecord where
  trace : List Executed
  stats : TickStats

/-- The instructions of one program. -/
def TickRecord.own (k : TickRecord) (program : Nat) : List Executed :=
  k.trace.filter (·.program = program)

theorem TickRecord.mem_own {k : TickRecord} {program : Nat} {e : Executed} :
    e ∈ k.own program ↔ e ∈ k.trace ∧ e.program = program := by
  simp [own]

/-- The programs execute their instructions one after the other, in their order. -/
def TickRecord.InOrder (k : TickRecord) : Prop := k.trace.Pairwise (·.program ≤ ·.program)

/-- A tick in the given mode leads to `w'`, with the instructions and the statistics of the
record. -/
def World.TickTrace (w : World) (mode : Mode) (k : TickRecord) (w' : World) : Prop :=
  ∃ budget x, w.budget mode = .ok budget ∧
    (w.race mode budget).Trace w.machine k.trace x ∧ w.Settled x ∧ w.settle x = w' ∧
      k.stats = .total ((List.range w.bank.size).map fun p => (x.threads p).stats mode)

/-! ## Traces of races -/

private theorem Machine.finished_of_solo {m : Machine} {p n : Nat} {t t' : Thread} {s s' : Store}
    (hn : t.remaining ≤ n) (h : m.solo p n t s = .ok (t', s')) : t'.Finished := by
  induction n generalizing t s with
  | zero =>
    simp only [Machine.solo, pure_eq_ok, Except.ok.injEq, Prod.mk.injEq] at h
    exact h.1 ▸ .inr (Nat.le_zero.1 hn)
  | succ n ih =>
    by_cases hlive : t.Finished
    · rw [Machine.solo_of_finished hlive] at h
      simp only [Except.ok.injEq, Prod.mk.injEq] at h
      exact h.1 ▸ hlive
    · obtain ⟨y, -, hrest⟩ := Machine.exists_step_of_solo hlive h
      refine ih ?_ hrest
      rw [Thread.remaining_next]
      omega

theorem Machine.Drives.single {m : Machine} {r : Registers} {l : List Executed} {t : Thread}
    (h : m.Drives (.fresh 1 r) l t) (ht : t.Finished) :
    ∃ e, l = [e] ∧ e.registers = r ∧ m.step e.program r e.store = .ok e.result ∧
      t = (Thread.fresh 1 r).next e.result := by
  cases h with
  | nil => exact absurd ht (by simp [Thread.Finished, Thread.fresh])
  | @cons _ _ e _ _ hregisters hstep hrest =>
    cases hrest with
    | nil => exact ⟨e, rfl, hregisters, by rwa [hregisters] at hstep, rfl⟩
    | cons hlive => exact absurd (.inr rfl) hlive

namespace Race

variable {m : Machine} {x y z : Race} {l l' : List Executed}

private theorem Trace.append (h : x.Trace m l y) (h' : y.Trace m l' z) : x.Trace m (l ++ l') z := by
  induction h with
  | nil => exact h'
  | cons hlive hstep _ ih => exact .cons hlive hstep (ih h')

/-- Every order of single instructions has a trace.  A turn that is over adds nothing to it. -/
theorem exists_trace_of_play {order : List Nat} (h : x.play m order = .ok y) :
    ∃ l, x.Trace m l y := by
  induction order generalizing x with
  | nil =>
    obtain rfl := Except.ok.inj h
    exact ⟨[], .nil x⟩
  | cons p order ih =>
    rw [play, List.foldlM_cons, bind_eq_ok_iff] at h
    obtain ⟨x', hadvance, h⟩ := h
    obtain ⟨l, hl⟩ := ih h
    by_cases hlive : (x.threads p).Finished
    · rw [advance_of_finished hlive, Except.ok.injEq] at hadvance
      exact ⟨l, hadvance ▸ hl⟩
    · rw [advance, Machine.advance, if_neg hlive] at hadvance
      simp only [bind_eq_ok_iff, pure_eq_ok, Except.ok.injEq] at hadvance
      obtain ⟨_, ⟨y, hstep, rfl⟩, rfl⟩ := hadvance
      exact ⟨_, .cons hlive hstep hl⟩

private theorem exists_trace_of_solo (threads : Nat → Thread) {p n : Nat} {t t' : Thread}
    {s s' : Store} (h : m.solo p n t s = .ok (t', s')) :
    ∃ l, Trace m ⟨s, Function.update threads p t⟩ l ⟨s', Function.update threads p t'⟩ ∧
      ∀ e ∈ l, e.program = p := by
  induction n generalizing t s with
  | zero =>
    simp only [Machine.solo, pure_eq_ok, Except.ok.injEq, Prod.mk.injEq] at h
    obtain ⟨rfl, rfl⟩ := h
    exact ⟨[], .nil _, by simp⟩
  | succ n ih =>
    by_cases hlive : t.Finished
    · rw [Machine.solo_of_finished hlive] at h
      simp only [Except.ok.injEq, Prod.mk.injEq] at h
      obtain ⟨rfl, rfl⟩ := h
      exact ⟨[], .nil _, by simp⟩
    · obtain ⟨y, hstep, hrest⟩ := Machine.exists_step_of_solo hlive h
      obtain ⟨l, hl, hown⟩ := ih hrest
      refine ⟨_, .cons (x := ⟨s, Function.update threads p t⟩) (p := p) (y := y) (l := l)
        ?_ ?_ ?_, List.forall_mem_cons.2 ⟨rfl, hown⟩⟩
      · simpa using hlive
      · simpa using hstep
      · simpa using hl

theorem Trace.inRange {s₀ : Store} (hfit : m.Fits s₀) (hx : x.InRange s₀)
    (h : x.Trace m l y) : y.InRange s₀ ∧ ∀ e ∈ l, e.InRange m s₀ := by
  induction h with
  | nil => exact ⟨hx, by simp⟩
  | @cons x z p y l hlive hstep _ ih =>
    obtain ⟨x', hadvance, hx'⟩ := advance_ok hfit hx p
    rw [advance, Machine.advance_of_step hlive hstep] at hadvance
    obtain rfl := Except.ok.inj hadvance
    obtain ⟨hz, hl⟩ := ih hx'
    refine ⟨hz, List.forall_mem_cons.2 ⟨?_, hl⟩⟩
    exact ⟨hx.live p hlive, hx.within p, hx.shape, hstep⟩

theorem Trace.drives (h : x.Trace m l y) (p : Nat) :
    m.Drives (x.threads p) (l.filter (·.program = p)) (y.threads p) := by
  induction h with
  | nil => exact .nil _
  | @cons x z q y l hlive hstep _ ih =>
    by_cases hqp : q = p
    · subst hqp
      rw [List.filter_cons_of_pos (by simp)]
      dsimp only at ih
      rw [Function.update_self] at ih
      exact .cons hlive rfl hstep ih
    · rw [List.filter_cons_of_neg (by simpa using hqp)]
      dsimp only at ih
      rwa [Function.update_of_ne (Ne.symm hqp)] at ih

end Race

/-! ## Traces of ticks -/

namespace World

variable {w w' : World} {mode : Mode} {budget : Nat} {k : TickRecord}

theorem tickTrace_of_interleave {order : List Nat} {x : Race}
    (hplay : w.interleave mode order = .ok x) (hsettled : w.Settled x) :
    ∃ k, w.TickTrace mode k (w.settle x) := by
  rw [interleave, bind_eq_ok_iff] at hplay
  obtain ⟨budget, hbudget, hplay⟩ := hplay
  obtain ⟨l, hl⟩ := Race.exists_trace_of_play hplay
  exact ⟨⟨l, _⟩, budget, x, hbudget, hl, hsettled, rfl, rfl⟩

/-- In the sweep and in the race the programs below `n` have had their turns, and the others
have the registers that they had before. -/
structure InTurn (w : World) (mode : Mode) (budget n : Nat) (x : Sweep) (y : Race) : Prop where
  stats_eq : x.stats = .total ((List.range n).map fun p => (y.threads p).stats mode)
  store_eq : x.store = y.store
  inRange : x.InRange w.store
  taken : ∀ p < n, x.bank.get p = .ok (y.threads p).registers ∧ (y.threads p).Finished
  waiting : ∀ p, n ≤ p → x.bank.get p = w.bank.get p ∧
    y.threads p = (w.race mode budget).threads p

/-- The next turn of the sweep is a trace of its own. -/
theorem InTurn.visit {n : Nat} {x : Sweep} {y : Race} (h : w.Sound)
    (hbudget : w.budget mode = .ok budget) (hn : n < w.bank.size)
    (hturn : w.InTurn mode budget n x y) :
    ∃ x' l y', Sweep.visit (mode.turn w.machine budget) x n = .ok x' ∧
      y.Trace w.machine l y' ∧ (∀ e ∈ l, e.program = n) ∧
        w.InTurn mode budget (n + 1) x' y' := by
  obtain ⟨r, hr⟩ := w.bank.get_ok hn
  obtain ⟨hget, hthread⟩ := hturn.waiting n (Nat.le_refl n)
  rw [race_threads mode budget hr] at hthread
  have hn' : n < w.store.programs := h.programs_eq ▸ h.bank_size ▸ hn
  have hrange := race_inRange h mode budget
  have hwithin := race_threads mode budget hr ▸ hrange.within n
  rw [← hturn.inRange.shape.tapeLength_eq] at hwithin
  obtain ⟨t, s, hsolo⟩ := Machine.solo_ok (h.fits.of_sameShape hturn.inRange.shape)
    (fun _ => hturn.inRange.shape.programs_eq ▸ hn') hwithin budget
  obtain ⟨l, hl, hown⟩ := Race.exists_trace_of_solo y.threads hsolo
  rw [← hthread, Function.update_eq_self, hturn.store_eq] at hl
  have hvisit := Sweep.visit_eq_ok (hget.trans hr) (turn_of_solo hbudget hsolo)
  obtain ⟨x', hvisit', hx'⟩ := Sweep.visit_ok (turn_inRange h mode budget) hturn.inRange hn'
  rw [hvisit, Except.ok.injEq] at hvisit'
  subst hvisit'
  have hsize : n < x.bank.size := hturn.inRange.size_eq ▸ hn'
  refine ⟨_, l, _, hvisit, hl, hown, ?_, rfl, hx', fun p hp => ?_, fun p hp => ?_⟩
  · have hsame : (List.range n).map (fun p => ((Function.update y.threads n t) p).stats mode) =
        (List.range n).map fun p => (y.threads p).stats mode := by
      refine List.map_congr_left fun p hp => ?_
      rw [Function.update_of_ne (Nat.ne_of_lt (List.mem_range.1 hp))]
    rw [hturn.stats_eq, List.range_succ, List.map_append, TickStats.total_append, hsame]
    simp [Function.update_self]
  · dsimp only
    by_cases hpn : p = n
    · subst hpn
      rw [RegisterBank.get_put_self hsize, Function.update_self]
      have hbegins : (Thread.fresh budget (mode.initial r)).remaining ≤ budget := Nat.le_refl _
      exact ⟨rfl, Machine.finished_of_solo hbegins hsolo⟩
    · rw [RegisterBank.get_put_of_ne (Ne.symm hpn), Function.update_of_ne hpn]
      exact hturn.taken p (by omega)
  · have hpn : p ≠ n := by omega
    dsimp only
    rw [RegisterBank.get_put_of_ne hpn.symm, Function.update_of_ne hpn]
    exact hturn.waiting p (by omega)

private theorem exists_inTurn (h : w.Sound) (hbudget : w.budget mode = .ok budget) {n : Nat}
    (hn : n ≤ w.bank.size) :
    ∃ x l y, w.before mode budget n = .ok x ∧ (w.race mode budget).Trace w.machine l y ∧
      l.Pairwise (·.program ≤ ·.program) ∧ (∀ e ∈ l, e.program < n) ∧
        w.InTurn mode budget n x y := by
  induction n with
  | zero =>
    refine ⟨_, [], _, rfl, .nil _, .nil, by simp, rfl, rfl, h.inRange .zero, fun p hp => ?_,
      fun p _ => ⟨rfl, rfl⟩⟩
    omega
  | succ n ih =>
    obtain ⟨x, l, y, hx, hl, hsorted, hbelow, hturn⟩ := ih (by omega)
    obtain ⟨x', l', y', hvisit, hl', hown, hturn'⟩ := hturn.visit h hbudget (by omega)
    refine ⟨x', l ++ l', y', ?_, hl.append hl',
      List.pairwise_append.2 ⟨hsorted, ?_, ?_⟩, ?_, hturn'⟩
    · rw [before, Sweep.visitAll, List.range_succ, List.foldlM_append]
      rw [before, Sweep.visitAll] at hx
      rw [hx, ok_bind, List.foldlM_cons, hvisit]
      rfl
    · refine List.pairwise_of_forall_mem_list fun e he e' he' => ?_
      exact Nat.le_of_eq ((hown e he).trans (hown e' he').symm)
    · intro e he e' he'
      rw [hown e' he']
      exact Nat.le_of_lt (hbelow e he)
    · intro e he
      obtain he | he := List.mem_append.1 he
      · exact Nat.lt_succ_of_lt (hbelow e he)
      · exact hown e he ▸ Nat.lt_succ_self n

/-- The tick in the order of the programs has a trace in their order. -/
theorem exists_tickTrace (h : w.Sound) (mode : Mode) :
    ∃ k w', w.tickIn mode = .ok (k.stats, w') ∧ k.InOrder ∧ w.TickTrace mode k w' := by
  obtain ⟨budget, hbudget⟩ := budget_ok h mode
  obtain ⟨x, l, y, hx, hl, hsorted, -, hturn⟩ := exists_inTurn h hbudget (Nat.le_refl _)
  have hsize : x.bank.size = w.bank.size := by
    rw [hturn.inRange.size_eq, h.programs_eq, h.bank_size]
  have hbank : (w.settle y).bank = x.bank := by
    refine RegisterBank.eq_of_get ?_ (Array.size_ofFn.trans hsize.symm) fun p hp => ?_
    · rw [hturn.inRange.tapeLength_eq, h.tapeLength_eq]
      exact h.bank_tapeLength
    · have hp : p < w.bank.size := Nat.lt_of_lt_of_eq hp Array.size_ofFn
      rw [(hturn.taken p hp).1, RegisterBank.get_eq_ok_iff]
      simp [settle, hp]
  refine ⟨⟨l, x.stats⟩, w.settle y, ?_, hsorted, budget, y, hbudget, hl,
    fun p hp => (hturn.taken p hp).2, rfl, hturn.stats_eq⟩
  have hworld : ({ w with bank := x.bank, store := x.store, ticks := w.ticks + 1 } : World) =
      w.settle y := by
    rw [← hbank, hturn.store_eq]
    rfl
  rw [tickIn_eq hbudget, tickWith, show Sweep.visitAll _ _ _ = _ from hx, ok_bind, ← hworld]
  rfl

/-! ## What a trace tells of a tick -/

theorem TickTrace.inRange (h : w.Sound) (htick : w.TickTrace mode k w') :
    w'.Sound ∧ w'.store.SameShape w.store ∧ w'.config = w.config ∧ w'.torus = w.torus ∧
      ∀ e ∈ k.trace, e.InRange w.machine w.store := by
  obtain ⟨budget, x, -, htrace, -, rfl, -⟩ := htick
  obtain ⟨hx, hl⟩ := htrace.inRange h.fits (race_inRange h mode budget)
  exact ⟨settle_sound h hx, hx.shape, rfl, rfl, hl⟩

/-- The instructions of a program lead it from the registers that it begins its turn with to
those that the tick leaves. -/
theorem TickTrace.drives (htick : w.TickTrace mode k w') {p : Nat} {r : Registers}
    (hr : w.bank.get p = .ok r) :
    ∃ budget t, w.budget mode = .ok budget ∧ t.Finished ∧
      w.machine.Drives (.fresh budget (mode.initial r)) (k.own p) t ∧
        w'.bank.get p = .ok t.registers := by
  obtain ⟨budget, x, hbudget, htrace, hsettled, rfl, -⟩ := htick
  have hp := RegisterBank.lt_size_of_get hr
  have hdrives := htrace.drives p
  rw [race_threads mode budget hr] at hdrives
  refine ⟨budget, x.threads p, hbudget, hsettled p hp, hdrives, ?_⟩
  rw [RegisterBank.get_eq_ok_iff]
  simp [settle, hp]

theorem TickTrace.single (htick : w.TickTrace .step k w') {p : Nat} {r : Registers}
    (hr : w.bank.get p = .ok r) :
    ∃ e ∈ k.trace, k.own p = [e] ∧ e.registers = r ∧
      w.machine.step p r e.store = .ok e.result ∧
        w'.bank.get p = .ok e.result.registers := by
  obtain ⟨budget, t, hbudget, ht, hdrives, hget⟩ := htick.drives hr
  obtain rfl : 1 = budget := Except.ok.inj hbudget
  obtain ⟨e, hown, hregisters, hstep, rfl⟩ := hdrives.single ht
  obtain ⟨he, hprogram⟩ := TickRecord.mem_own.1 (hown ▸ List.mem_singleton_self e)
  exact ⟨e, he, hown, hregisters, hprogram ▸ hstep, hget⟩

end World
end TapeTorus
