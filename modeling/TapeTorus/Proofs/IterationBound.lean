import TapeTorus.Proofs.Trace

/-!
# A higher iteration bound extends runs

A run with a higher limit is the run with the lower one, carried on from where that one has
stopped (`Machine.runFrom_add`).  A run that halts is the same with every higher limit, and
if all runs of a tick halt, so is the tick (`World.higher_bound_extends`).
-/

namespace TapeTorus

namespace Machine

/-- Carries on a run that has not halted. -/
def carryOn (m : Machine) (program budget : Nat) (t : Turn) : Except Fault Turn :=
  if t.stats.halted = 1 then return t
  else m.runFrom program budget t.stats.instructions t.registers t.store

variable {m : Machine} {program budget more done : Nat} {r : Registers} {s : Store} {t : Turn}

private theorem runFrom_add (m : Machine) (program budget more done : Nat) (r : Registers)
    (s : Store) :
    m.runFrom program (budget + more) done r s =
      m.runFrom program budget done r s >>= m.carryOn program more := by
  induction budget generalizing done r s with
  | zero =>
    rw [Nat.zero_add]
    rfl
  | succ budget ih =>
    rw [Nat.succ_add]
    cases hstep : m.step program r s with
    | error fault => rw [runFrom_of_error hstep, runFrom_of_error hstep]; rfl
    | ok x =>
      cases hx : x.outcome with
      | halted => rw [runFrom_of_halted hstep hx, runFrom_of_halted hstep hx]; rfl
      | running => rw [runFrom_of_running hstep hx, runFrom_of_running hstep hx, ih]

private theorem runFrom_of_le {limit : Nat} (hle : budget ≤ limit) :
    m.runFrom program limit done r s =
      m.runFrom program budget done r s >>= m.carryOn program (limit - budget) := by
  rw [← runFrom_add, Nat.add_sub_cancel' hle]

private theorem runFrom_of_halted_run {limit : Nat} (hle : budget ≤ limit)
    (h : m.runFrom program budget done r s = .ok t) (hhalted : t.stats.halted = 1) :
    m.runFrom program limit done r s = .ok t := by
  rw [runFrom_of_le hle, h, ok_bind]
  exact if_pos hhalted

private theorem runLog_take {limit : Nat} {log : List Executed} (hle : budget ≤ limit)
    (h : m.runFrom program limit done r s = .ok t)
    (hlog : m.runLog program limit r s = .ok log) :
    m.runLog program budget r s = .ok (log.take budget) := by
  induction budget generalizing limit done r s log with
  | zero => rfl
  | succ budget ih =>
    obtain ⟨limit, rfl⟩ := Nat.exists_eq_add_of_le' (Nat.le_trans (Nat.succ_pos budget) hle)
    obtain ⟨x, hstep, ⟨hx, -, rfl⟩ | ⟨hx, rest, rfl, hrest, hrestLog⟩⟩ := run_cases h hlog
    · rw [runLog_of_halted hstep hx, List.take_succ_cons, List.take_nil]
    · exact runLog_of_running hstep hx (ih (Nat.le_of_succ_le_succ hle) hrest hrestLog)

/-- The machine with another iteration bound, which no instruction reads. -/
def withBound (m : Machine) (bound : Option Nat) : Machine :=
  { m with exec := { m.exec with maxIterations := bound } }

private theorem step_withBound (m : Machine) (bound : Option Nat) (program : Nat) (r : Registers)
    (s : Store) : (m.withBound bound).step program r s = m.step program r s := rfl

private theorem runFrom_withBound (m : Machine) (bound : Option Nat) (program budget done : Nat)
    (r : Registers) (s : Store) :
    (m.withBound bound).runFrom program budget done r s =
      m.runFrom program budget done r s := by
  induction budget generalizing done r s with
  | zero => rfl
  | succ budget ih =>
    cases hstep : m.step program r s with
    | error fault =>
      rw [runFrom_of_error hstep, runFrom_of_error ((step_withBound ..).trans hstep)]
    | ok x =>
      have hstep' := (m.step_withBound bound program r s).trans hstep
      cases hx : x.outcome with
      | halted => rw [runFrom_of_halted hstep hx, runFrom_of_halted hstep' hx]
      | running => rw [runFrom_of_running hstep hx, runFrom_of_running hstep' hx, ih]

end Machine

/-! ## Sweeps of runs -/

private theorem TickStats.exhausted_total_eq_zero_iff {l : List TickStats} :
    (total l).exhausted = 0 ↔ ∀ a ∈ l, a.exhausted = 0 := by
  induction l with
  | nil => exact iff_of_true rfl (by simp)
  | cons a l ih => rw [total_cons, merge, List.forall_mem_cons, ← ih, Nat.add_eq_zero_iff]

namespace Sweep

variable {turn turn' : Nat → Registers → Store → Except Fault Turn} {x y : Sweep}
  {program : Nat} {programs : List Nat}

private theorem turn_of_visit (h : visit turn x program = .ok y) :
    ∃ r t, x.bank.get program = .ok r ∧ turn program r x.store = .ok t ∧
      y.stats.exhausted = x.stats.exhausted + t.stats.exhausted := by
  rw [visit, bind_eq_ok_iff] at h
  obtain ⟨r, hr, h⟩ := h
  rw [bind_eq_ok_iff] at h
  obtain ⟨t, ht, h⟩ := h
  obtain rfl := Except.ok.inj h
  exact ⟨r, t, hr, ht, rfl⟩

private theorem exhausted_le_of_visitAll (h : visitAll turn programs x = .ok y) :
    x.stats.exhausted ≤ y.stats.exhausted := by
  induction programs generalizing x with
  | nil =>
    obtain rfl := Except.ok.inj h
    exact Nat.le_refl _
  | cons p programs ih =>
    rw [visitAll, List.foldlM_cons, bind_eq_ok_iff] at h
    obtain ⟨x', hvisit, h⟩ := h
    obtain ⟨r, t, -, -, hsum⟩ := turn_of_visit hvisit
    exact Nat.le_trans (by omega) (ih h)

/-- A sweep that exhausts no turn is the same with turns that only those differ from which
are exhausted. -/
theorem visitAll_of_unexhausted
    (hturn : ∀ p r s t, turn p r s = .ok t → t.stats.exhausted = 0 → turn' p r s = .ok t)
    (h : visitAll turn programs x = .ok y) (hy : y.stats.exhausted = 0) :
    visitAll turn' programs x = .ok y := by
  induction programs generalizing x with
  | nil => exact h
  | cons p programs ih =>
    rw [visitAll, List.foldlM_cons, bind_eq_ok_iff] at h
    obtain ⟨x', hvisit, h⟩ := h
    have hsum := hvisit
    obtain ⟨r, t, hr, ht, hsum⟩ := turn_of_visit hsum
    have hle := exhausted_le_of_visitAll h
    have ht' := hturn p r x.store t ht (by omega)
    rw [visit_eq_ok hr ht] at hvisit
    rw [visitAll, List.foldlM_cons, visit_eq_ok hr ht', hvisit, ok_bind]
    exact ih h

end Sweep

/-! ## Races of runs -/

namespace Race

/-- The turns with more instructions that may still be executed. -/
def extend (x : Race) (more : Nat → Nat) : Race where
  store := x.store
  threads p := { x.threads p with remaining := (x.threads p).remaining + more p }

private theorem extend_finished {x : Race} {more : Nat → Nat} {p : Nat}
    (h : ((x.extend more).threads p).Finished) : (x.threads p).Finished := by
  obtain hhalted | hspent := h
  · exact .inl hhalted
  · exact .inr (Nat.eq_zero_of_add_eq_zero_right hspent)

private theorem Trace.extend {m : Machine} {x y : Race} {l : List Executed} (h : x.Trace m l y)
    (bound : Option Nat) (more : Nat → Nat) :
    (x.extend more).Trace (m.withBound bound) l (y.extend more) := by
  induction h with
  | nil x => exact .nil _
  | @cons x z p y l hlive hstep _ ih =>
    have hremaining : (x.threads p).remaining ≠ 0 := fun hspent => hlive (.inr hspent)
    have hnext : Function.update (x.extend more).threads p (((x.extend more).threads p).next y) =
        (Race.extend ⟨y.store, Function.update x.threads p ((x.threads p).next y)⟩
          more).threads := by
      funext q
      by_cases hqp : q = p
      · subst hqp
        simp only [Race.extend, Thread.next, Function.update_self, Thread.mk.injEq, true_and,
          and_true]
        omega
      · simp only [Race.extend, Function.update_of_ne hqp]
    refine .cons (fun hfinished => hlive (extend_finished hfinished)) hstep ?_
    rw [hnext]
    exact ih

end Race

/-! ## Ticks of runs -/

namespace World

variable {w w' : World} {bound : Option Nat} {limit limit' : Nat}

/-- The world with another iteration bound. -/
def withBound (w : World) (bound : Option Nat) : World :=
  { w with config := { w.config with exec := { w.config.exec with maxIterations := bound } } }

private theorem run_withBound (hlimit : w.budget .run = .ok limit)
    (hlimit' : (w.withBound bound).budget .run = .ok limit') (hle : limit ≤ limit')
    {stats : TickStats} (h : w.run = .ok (stats, w')) (hstats : stats.exhausted = 0) :
    (w.withBound bound).run = .ok (stats, w'.withBound bound) := by
  change w.tickIn .run = _ at h
  change (w.withBound bound).tickIn .run = _
  rw [tickIn_eq hlimit, tickWith, bind_eq_ok_iff] at h
  obtain ⟨x, hx, h⟩ := h
  obtain ⟨rfl, rfl⟩ := Prod.mk.inj (Except.ok.inj h)
  have hx' : Sweep.visitAll (Mode.run.turn (w.withBound bound).machine limit')
      (List.range w.bank.size) ⟨.zero, w.bank, w.store⟩ = .ok x := by
    refine Sweep.visitAll_of_unexhausted (fun p r s t ht hexhausted => ?_) hx hstats
    have hhalted : t.stats.halted = 1 := by
      obtain ⟨hhalted, -⟩ | ⟨-, hexhausted', -⟩ := Machine.halted_or_exhausted ht
      · exact hhalted
      · omega
    exact (w.machine.runFrom_withBound bound p limit' 0 .start s).trans
      (Machine.runFrom_of_halted_run hle ht hhalted)
  rw [tickIn_eq hlimit', tickWith]
  exact bind_eq_ok_iff.2 ⟨x, hx', rfl⟩

private theorem race_withBound (w : World) (bound : Option Nat) (hle : limit ≤ limit') :
    (w.withBound bound).race .run limit' = (w.race .run limit).extend
      fun p => if p < w.bank.size then limit' - limit else 0 := by
  have hthreads : ((w.withBound bound).race .run limit').threads =
      ((w.race .run limit).extend fun p =>
        if p < w.bank.size then limit' - limit else 0).threads := by
    funext p
    simp only [race, Race.extend]
    by_cases hp : p < w.bank.size
    · obtain ⟨r, hr⟩ := w.bank.get_ok hp
      have hr' : (w.withBound bound).bank.get p = .ok r := hr
      rw [hr, hr', if_pos hp]
      simp only [Thread.fresh, Nat.add_sub_cancel' hle]
    · cases hr : w.bank.get p with
      | ok r => exact absurd (RegisterBank.lt_size_of_get hr) hp
      | error fault =>
        have hr' : (w.withBound bound).bank.get p = .error fault := hr
        rw [hr', if_neg hp]
        rfl
  exact congrArg (Race.mk w.store) hthreads

private theorem TickTrace.withBound {k : TickRecord} (hlimit : w.budget .run = .ok limit)
    (hlimit' : (w.withBound bound).budget .run = .ok limit') (hle : limit ≤ limit')
    (htick : w.TickTrace .run k w') (hstats : k.stats.exhausted = 0) :
    (w.withBound bound).TickTrace .run k (w'.withBound bound) := by
  obtain ⟨budget, x, hbudget, htrace, -, rfl, htotal⟩ := htick
  obtain rfl : limit = budget := Except.ok.inj (hlimit.symm.trans hbudget)
  have htrace' := htrace.extend bound fun p => if p < w.bank.size then limit' - limit else 0
  rw [← race_withBound w bound hle] at htrace'
  refine ⟨limit', _, hlimit', htrace', fun p hp => .inl ?_, rfl, htotal⟩
  rw [htotal, TickStats.exhausted_total_eq_zero_iff] at hstats
  have hzero : (if (x.threads p).halted then 0 else 1) = 0 :=
    hstats _ (List.mem_map_of_mem (List.mem_range.2 hp))
  change (x.threads p).halted = true
  by_contra hhalted
  rw [if_neg hhalted] at hzero
  exact Nat.one_ne_zero hzero

/-- A run with a higher limit is the run with the lower one, carried on from there if it
has not halted: it passes through what the lower limit leaves, after as many instructions as
that one allows or else at its own end.  Two worlds that differ only in their iteration
bounds have the same tick of runs if the lower bound exhausts no program, and every order of
single instructions that settles the one settles the other. -/
theorem higher_bound_extends :
    (∀ (m : Machine) (program : Nat) (s : Store) (limit limit' : Nat), limit ≤ limit' →
      m.runProgram program limit' s =
          m.runProgram program limit s >>= m.carryOn program (limit' - limit) ∧
      (∀ t, m.runProgram program limit s = .ok t → t.stats.halted = 1 →
        m.runProgram program limit' s = .ok t) ∧
      ∀ t', m.runProgram program limit' s = .ok t' → ∃ t log,
        m.runProgram program limit s = .ok t ∧ m.runLog program limit' .start s = .ok log ∧
        (log.length = t'.stats.instructions ∧
          (t'.registers, t'.store) = Executed.after log (.start, s)) ∧
        t.stats.instructions = min limit t'.stats.instructions ∧
          (t.registers, t.store) =
            Executed.after (log.take (min limit t'.stats.instructions)) (.start, s)) ∧
    (∀ (w : World) (bound : Option Nat) (limit limit' : Nat),
      w.config.exec.iterationLimit w.config.tapeLength = .ok limit →
      (w.withBound bound).config.exec.iterationLimit w.config.tapeLength = .ok limit' →
      limit ≤ limit' →
      (∀ stats w', w.run = .ok (stats, w') → stats.exhausted = 0 →
        (w.withBound bound).run = .ok (stats, w'.withBound bound)) ∧
      ∀ k w', w.TickTrace .run k w' → k.stats.exhausted = 0 →
        (w.withBound bound).TickTrace .run k (w'.withBound bound)) := by
  refine ⟨fun m program s limit limit' hle => ⟨m.runFrom_of_le hle, fun t ht hhalted => ?_,
    fun t' ht' => ?_⟩, fun w bound limit limit' hlimit hlimit' hle => ⟨?_, ?_⟩⟩
  · exact Machine.runFrom_of_halted_run hle ht hhalted
  · have hbind := ht'
    rw [Machine.runProgram, Machine.runFrom_of_le hle, bind_eq_ok_iff] at hbind
    obtain ⟨t, ht, -⟩ := hbind
    obtain ⟨log, hlog, hcount, hafter⟩ := Machine.exists_runLog ht'
    obtain ⟨first, hfirst, hcount', hafter'⟩ := Machine.exists_runLog ht
    rw [Machine.runLog_take hle ht' hlog, Except.ok.injEq] at hfirst
    rw [Nat.zero_add] at hcount hcount'
    rw [← hfirst, List.length_take, ← hcount] at hcount'
    refine ⟨t, log, ht, hlog, ⟨hcount.symm, hafter⟩, hcount', ?_⟩
    rw [hafter', ← hfirst, hcount, List.take_eq_take_min]
  · exact fun stats w' => run_withBound hlimit hlimit' hle
  · exact fun k w' => TickTrace.withBound hlimit hlimit' hle

/-- Both programs halt at the last instruction that the limit of three allows, so that a
world without a bound has the same tick.  The limit of two stops the first one before. -/
theorem higher_bound_extends_pair :
    (∃ t t' log, pair.machine.runProgram 0 2 pair.store = .ok t ∧ t.stats = ⟨2, 0, 1⟩ ∧
      pair.machine.runProgram 0 3 pair.store = .ok t' ∧ t'.stats = ⟨3, 1, 0⟩ ∧
        pair.machine.runLog 0 3 .start pair.store = .ok log ∧
          (t.registers, t.store) = Executed.after (log.take 2) (.start, pair.store)) ∧
    ∃ w', pair.run = .ok (⟨6, 2, 0⟩, w') ∧
      (pair.withBound none).run = .ok (⟨6, 2, 0⟩, w'.withBound none) := by
  constructor
  · obtain ⟨t', ht', hstats'⟩ : ∃ t', pair.machine.runProgram 0 3 pair.store = .ok t' ∧
        t'.stats = ⟨3, 1, 0⟩ := ⟨_, rfl, rfl⟩
    obtain ⟨-, -, hpasses⟩ := higher_bound_extends.1 pair.machine 0 pair.store 2 3 (by decide)
    obtain ⟨t, log, ht, hlog, -, -, hafter⟩ := hpasses t' ht'
    have hstats : (pair.machine.runProgram 0 2 pair.store).map Turn.stats = .ok ⟨2, 0, 1⟩ := rfl
    rw [ht] at hstats
    rw [hstats'] at hafter
    exact ⟨t, t', log, ht, Except.ok.inj hstats, ht', hstats', hlog, hafter⟩
  · obtain ⟨w', hrun⟩ : ∃ w', pair.run = .ok (⟨6, 2, 0⟩, w') := ⟨_, rfl⟩
    obtain ⟨hruns, -⟩ := higher_bound_extends.2 pair none 3 256 rfl rfl (by decide)
    exact ⟨w', hrun, hruns ⟨6, 2, 0⟩ w' hrun rfl⟩

end World
end TapeTorus
