import Mathlib.Tactic.Choose
import TapeTorus.Proofs.Isolation
import TapeTorus.Proofs.Reachable

/-!
# Ticks in any order

If the programs of a tick touch different tapes, every order of their single
instructions ends like the sweep in the order of the programs: each turn goes the
way that it takes alone on the tapes before the tick.  What the turns report adds
up to the same sum, in whatever order and grouping it is merged.
-/

namespace TapeTorus

/-! ## Merging statistics -/

namespace TickStats

def total (l : List TickStats) : TickStats := l.foldr merge zero

@[simp] theorem total_nil : total [] = zero := rfl

@[simp] theorem total_cons (a : TickStats) (l : List TickStats) :
    total (a :: l) = a.merge (total l) := rfl

theorem total_append (l l' : List TickStats) : total (l ++ l') = (total l).merge (total l') := by
  induction l with
  | nil => rw [List.nil_append, total_nil, zero_merge]
  | cons a l ih => rw [List.cons_append, total_cons, total_cons, ih, merge_assoc]

private theorem total_perm {l l' : List TickStats} (h : l.Perm l') : total l = total l' := by
  induction h with
  | nil => rfl
  | cons a _ ih => rw [total_cons, total_cons, ih]
  | swap a b l =>
    rw [total_cons, total_cons, total_cons, total_cons, ← merge_assoc, ← merge_assoc,
      merge_comm a b]
  | trans _ _ ih ih' => exact ih.trans ih'

end TickStats

/-- A way to merge what the programs report, two parts at a time.  Empty parts may
occur anywhere. -/
inductive MergeTree where
  | empty
  | leaf (program : Nat)
  | node (left right : MergeTree)

namespace MergeTree

def leaves : MergeTree → List Nat
  | empty => []
  | leaf program => [program]
  | node left right => left.leaves ++ right.leaves

def total (stats : Nat → TickStats) : MergeTree → TickStats
  | empty => .zero
  | leaf program => stats program
  | node left right => (left.total stats).merge (right.total stats)

theorem total_eq (stats : Nat → TickStats) (tree : MergeTree) :
    tree.total stats = TickStats.total (tree.leaves.map stats) := by
  induction tree with
  | empty => rfl
  | leaf program => rfl
  | node left right ihLeft ihRight =>
    rw [total, leaves, List.map_append, TickStats.total_append, ihLeft, ihRight]

end MergeTree

/-! ## Turns of a tick -/

/-- The turn of a program in a tick of the given mode. -/
def Mode.turn (mode : Mode) (m : Machine) (budget program : Nat) (r : Registers) (s : Store) :
    Except Fault Turn :=
  match mode with
  | .step => m.stepTurn program r s
  | .run => m.runProgram program budget s

namespace World

theorem tickIn_eq {w : World} {mode : Mode} {budget : Nat} (h : w.budget mode = .ok budget) :
    w.tickIn mode = w.tickWith (mode.turn w.machine budget) := by
  cases mode with
  | step => rfl
  | run =>
    rw [tickIn, run, show w.config.exec.iterationLimit w.config.tapeLength = .ok budget from h]
    rfl

theorem turn_of_solo {w : World} {mode : Mode} {budget program : Nat} {r : Registers}
    {s s' : Store} {t : Thread} (hbudget : w.budget mode = .ok budget)
    (h : w.machine.solo program budget (.fresh budget (mode.initial r)) s = .ok (t, s')) :
    mode.turn w.machine budget program r s = .ok ⟨t.stats mode, t.registers, s'⟩ := by
  cases mode with
  | step =>
    obtain rfl : 1 = budget := Except.ok.inj hbudget
    exact Machine.stepTurn_of_solo h
  | run => exact Machine.runFrom_of_solo h

theorem turn_inRange {w : World} (h : w.Sound) (mode : Mode) (budget : Nat) :
    TurnInRange (mode.turn w.machine budget) w.store := by
  cases mode with
  | step => exact Machine.stepTurn_inRange h.fits
  | run => exact Machine.runProgram_inRange h.fits budget

/-- The sweep before the turn of a program. -/
def before (w : World) (mode : Mode) (budget program : Nat) : Except Fault Sweep :=
  Sweep.visitAll (mode.turn w.machine budget) (List.range program) ⟨.zero, w.bank, w.store⟩

/-- The neighbours whose tapes the copies of a program touch in a tick in the order
of the programs. -/
def copied (w : World) (mode : Mode) (program : Nat) : Except Fault (List Nat) := do
  let budget ← w.budget mode
  let x ← w.before mode budget program
  let r ← x.bank.get program
  w.machine.reached program budget (.fresh budget (mode.initial r)) x.store

def touched (w : World) (mode : Mode) (program : Nat) : Except Fault (List Nat) := do
  let neighbors ← w.copied mode program
  return program :: neighbors

/-- No two programs touch the same tape. -/
def Separate (w : World) (mode : Mode) : Prop :=
  ∀ p < w.bank.size, ∀ q < w.bank.size, p ≠ q → ∀ a b,
    w.touched mode p = .ok a → w.touched mode q = .ok b → ∀ tape ∈ a, tape ∉ b

/-- No program executes a copy. -/
def CopyFree (w : World) (mode : Mode) : Prop :=
  ∀ p < w.bank.size, w.copied mode p = .ok []

theorem copied_ok {w : World} (h : w.Sound) (mode : Mode) {p : Nat} (hp : p < w.bank.size) :
    ∃ l, w.copied mode p = .ok l ∧ ∀ q ∈ l, q < w.bank.size := by
  obtain ⟨budget, hbudget⟩ := budget_ok h mode
  have hprograms : w.store.programs = w.bank.size := h.programs_eq.trans h.bank_size.symm
  have hbefore : ∀ q ∈ List.range p, q < w.store.programs := by
    intro q hq
    have hlt := List.mem_range.1 hq
    omega
  obtain ⟨x, hx, hrange⟩ :=
    Sweep.visitAll_ok (turn_inRange h mode budget) (h.inRange .zero) hbefore
  obtain ⟨r, hr⟩ := x.bank.get_ok (show p < x.bank.size by rw [hrange.size_eq]; omega)
  have hstart : (mode.initial r).Within x.store.tapeLength := by
    rw [hrange.shape.tapeLength_eq]
    cases mode with
    | step => exact hrange.within p r hr
    | run => exact Registers.within_start w.store.tapeLength_pos
  obtain ⟨l, hl, hbound⟩ := Machine.reached_ok (h.fits.of_sameShape hrange.shape)
    (fun _ => show p < x.store.programs by rw [hrange.shape.programs_eq]; omega)
    (show (Thread.fresh budget (mode.initial r)).registers.Within x.store.tapeLength from hstart)
    budget
  refine ⟨l, ?_, fun q hq => ?_⟩
  · rw [copied, hbudget, ok_bind, before, hx, ok_bind, hr]
    exact hl
  · have hlt := hbound q hq
    rw [hrange.shape.programs_eq] at hlt
    omega

/-- Where the touched tapes are apart, a program copies from and to its own tape only:
every other tape is touched by its owner. -/
theorem Separate.copied_eq {w : World} {mode : Mode} {p q : Nat} {l : List Nat} (h : w.Sound)
    (hseparate : w.Separate mode) (hp : p < w.bank.size) (hl : w.copied mode p = .ok l)
    (hq : q ∈ l) : q = p := by
  obtain ⟨l', hl', hbound⟩ := copied_ok h mode hp
  rw [hl, Except.ok.injEq] at hl'
  subst hl'
  obtain ⟨other, hother, -⟩ := copied_ok h mode (hbound q hq)
  by_contra hne
  have hdisjoint := hseparate p hp q (hbound q hq) (Ne.symm hne) (p :: l) (q :: other)
    (by rw [touched, hl]; rfl) (by rw [touched, hother]; rfl)
  exact hdisjoint q (List.mem_cons_of_mem _ hq) List.mem_cons_self

private theorem CopyFree.separate {w : World} {mode : Mode} (h : w.CopyFree mode) :
    w.Separate mode := by
  intro p hp q hq hne a b ha hb tape htape
  rw [touched, h p hp] at ha
  rw [touched, h q hq] at hb
  obtain rfl := Except.ok.inj ha
  obtain rfl := Except.ok.inj hb
  rw [List.mem_singleton] at htape ⊢
  exact htape ▸ hne

/-! ## The sweep in the order of the programs -/

section Outcomes

/-- The turns of the tick end like `T` with own tapes like `U` if every program is
alone on the tapes before the tick. -/
structure Outcomes (w : World) (mode : Mode) (budget : Nat) (T : Nat → Thread)
    (U : Nat → Store) : Prop where
  budget_eq : w.budget mode = .ok budget
  solo : ∀ p r, w.bank.get p = .ok r →
    w.machine.solo p budget (.fresh budget (mode.initial r)) w.store = .ok (T p, U p)

private theorem outcomes_exist {w : World} (h : w.Sound) (mode : Mode) :
    ∃ budget T U, w.Outcomes mode budget T U := by
  obtain ⟨budget, hbudget⟩ := budget_ok h mode
  have hsolo : ∀ p, ∃ t u, ∀ r, w.bank.get p = .ok r →
      w.machine.solo p budget (.fresh budget (mode.initial r)) w.store = .ok (t, u) := by
    intro p
    cases hget : w.bank.get p with
    | error fault => exact ⟨.fresh 0 .start, w.store, by simp⟩
    | ok r =>
      have hrange := race_inRange h mode budget
      have hthread := race_threads mode budget hget
      have hwithin := hthread ▸ hrange.within p
      have hlive := hthread ▸ hrange.live p
      obtain ⟨t, u, htu⟩ := Machine.solo_ok h.fits hlive hwithin budget
      refine ⟨t, u, fun r' hr' => ?_⟩
      obtain rfl := Except.ok.inj hr'
      exact htu
  choose T U hTU using hsolo
  exact ⟨budget, T, U, hbudget, hTU⟩

/-- In the sweep the programs below `k` have had their turns, alone on their tapes,
and the others still have the tapes and registers that they had before. -/
structure Swept (w : World) (mode : Mode) (T : Nat → Thread) (U : Nat → Store) (k : Nat)
    (x : Sweep) : Prop where
  stats_eq : x.stats = TickStats.total ((List.range k).map fun p => (T p).stats mode)
  inRange : x.InRange w.store
  taken : ∀ p < k, x.bank.get p = .ok (T p).registers ∧ (U p).AgreeOn p x.store
  waiting : ∀ p, k ≤ p → x.bank.get p = w.bank.get p ∧ w.store.AgreeOn p x.store

variable {w : World} {mode : Mode} {budget : Nat} {T : Nat → Thread} {U : Nat → Store}

private theorem turn_of_isolated {p : Nat} {r : Registers} {s : Store}
    (hout : w.Outcomes mode budget T U) (hr : w.bank.get p = .ok r)
    (halone : w.machine.Isolated p (.fresh budget (mode.initial r)) w.store)
    (hagree : w.store.AgreeOn p s) :
    ∃ u, mode.turn w.machine budget p r s = .ok ⟨(T p).stats mode, (T p).registers, u⟩ ∧
      (U p).AgreeOn p u ∧ ∀ q, q ≠ p → u.AgreeOn q s := by
  obtain ⟨t, u, hsolo, -, hsame⟩ := halone.solo budget
  rw [hout.solo p r hr, Except.ok.injEq, Prod.mk.injEq] at hsolo
  obtain ⟨rfl, rfl⟩ := hsolo
  obtain ⟨u, hturn, hown⟩ := hsame s hagree
  obtain ⟨t', u', hturn', hframe, -⟩ := (halone.congr hagree).solo budget
  rw [hturn, Except.ok.injEq, Prod.mk.injEq] at hturn'
  obtain ⟨rfl, rfl⟩ := hturn'
  exact ⟨u, turn_of_solo hout.budget_eq hturn, hown, hframe⟩

private theorem swept_of_isolated (h : w.Sound) (hout : w.Outcomes mode budget T U) {k : Nat}
    (hk : k ≤ w.bank.size)
    (hisolated : ∀ p < k, ∀ r, w.bank.get p = .ok r →
      w.machine.Isolated p (.fresh budget (mode.initial r)) w.store) :
    ∃ x, w.before mode budget k = .ok x ∧ w.Swept mode T U k x := by
  induction k with
  | zero =>
    refine ⟨_, rfl, rfl, h.inRange .zero, fun p hp => by omega, fun p _ => ⟨rfl, .refl p _⟩⟩
  | succ k ih =>
    obtain ⟨x, hx, hswept⟩ := ih (by omega) fun p hp => hisolated p (by omega)
    obtain ⟨r, hr⟩ := w.bank.get_ok (show k < w.bank.size by omega)
    obtain ⟨hget, hagree⟩ := hswept.waiting k (Nat.le_refl k)
    obtain ⟨u, hturn, hown, hframe⟩ :=
      turn_of_isolated hout hr (hisolated k (by omega) r hr) hagree
    have hvisit := Sweep.visit_eq_ok (hget.trans hr) hturn
    have hsize : k < x.bank.size := hswept.inRange.size_eq ▸ h.programs_eq ▸ h.bank_size ▸ hk
    obtain ⟨x', hvisit', hrange⟩ := Sweep.visit_ok (turn_inRange h mode budget) hswept.inRange
      (show k < w.store.programs from h.programs_eq ▸ h.bank_size ▸ hk)
    rw [hvisit, Except.ok.injEq] at hvisit'
    subst hvisit'
    refine ⟨_, ?_, ?_, hrange, fun p hp => ?_, fun p hp => ?_⟩
    · rw [before, Sweep.visitAll, List.range_succ, List.foldlM_append]
      rw [before, Sweep.visitAll] at hx
      rw [hx, ok_bind, List.foldlM_cons, hvisit]
      rfl
    · rw [hswept.stats_eq, List.range_succ, List.map_append, TickStats.total_append]
      rfl
    · by_cases hpk : p = k
      · subst hpk
        exact ⟨RegisterBank.get_put_self hsize, hown⟩
      · obtain ⟨hold, htape⟩ := hswept.taken p (by omega)
        exact ⟨(RegisterBank.get_put_of_ne (Ne.symm hpk)).trans hold,
          htape.trans (hframe p hpk).symm⟩
    · obtain ⟨hold, htape⟩ := hswept.waiting p (by omega)
      have hpk : p ≠ k := by omega
      exact ⟨(RegisterBank.get_put_of_ne hpk.symm).trans hold, htape.trans (hframe p hpk).symm⟩

/-- Programs that touch different tapes in the sweep are alone on the tapes before it. -/
theorem isolated_of_separate (h : w.Sound) (hout : w.Outcomes mode budget T U)
    (hseparate : w.Separate mode) {p : Nat} {r : Registers} (hr : w.bank.get p = .ok r) :
    w.machine.Isolated p (.fresh budget (mode.initial r)) w.store := by
  induction p using Nat.strongRecOn generalizing r with
  | ind p ih =>
    have hp := RegisterBank.lt_size_of_get hr
    obtain ⟨x, hx, hswept⟩ := swept_of_isolated h hout (Nat.le_of_lt hp) fun q hq r hr => ih q hq hr
    obtain ⟨hget, hagree⟩ := hswept.waiting p (Nat.le_refl p)
    have hfits := h.fits.of_sameShape hagree.shape.symm
    have hrange := race_inRange h mode budget
    have hthread := race_threads mode budget hr
    have hwithin := hthread ▸ hrange.within p
    have hlive := hthread ▸ hrange.live p
    rw [hagree.shape.tapeLength_eq] at hwithin
    rw [hagree.shape.programs_eq] at hlive
    refine Machine.Isolated.congr ⟨hfits, hwithin, hlive, fun l hl q hq => ?_⟩ hagree.symm
    refine Separate.copied_eq h hseparate hp ?_ hq
    rw [copied, hout.budget_eq, ok_bind, hx, ok_bind, hget, hr]
    exact hl

end Outcomes

end World

/-! ## Every other order -/

namespace Race

variable {m : Machine} {T : Nat → Thread} {U : Nat → Store} {N : Nat} {x x' : Race}

theorem advance_of_finished {p : Nat} (h : (x.threads p).Finished) : x.advance m p = .ok x := by
  rw [advance, Machine.advance_of_finished p x.store h, ok_bind]
  simp only [Function.update_eq_self, pure_eq_ok]

/-- Every turn below `N` is isolated and, alone from here on, ends like `T` with an
own tape like `U`. -/
structure Heads (m : Machine) (T : Nat → Thread) (U : Nat → Store) (N : Nat) (x : Race) :
    Prop where
  live : ∀ p, ¬(x.threads p).Finished → p < N
  isolated : ∀ p < N, m.Isolated p (x.threads p) x.store
  ends : ∀ p < N, ∃ u, m.solo p (x.threads p).remaining (x.threads p) x.store = .ok (T p, u) ∧
    u.AgreeOn p (U p)

/-- One instruction of any program changes nothing in where the turns are heading. -/
theorem Heads.advance (h : x.Heads m T U N) (p : Nat) :
    ∃ x', x.advance m p = .ok x' ∧ x'.Heads m T U N := by
  by_cases hlive : (x.threads p).Finished
  · exact ⟨x, advance_of_finished hlive, h⟩
  obtain ⟨t, s, hadvance, hnext, hframe, -⟩ := (h.isolated p (h.live p hlive)).advance
  obtain ⟨x', hx', rfl, rfl, hothers⟩ := advance_eq_ok hadvance
  refine ⟨x', hx', fun q hq => ?_, fun q hq => ?_, fun q hq => ?_⟩
  · by_cases hqp : q = p
    · exact hqp ▸ h.live p hlive
    · exact h.live q (hothers q hqp ▸ hq)
  · by_cases hqp : q = p
    · exact hqp ▸ hnext
    · rw [hothers q hqp]
      exact (h.isolated q hq).congr (hframe q hqp).symm
  · obtain ⟨u, hsolo, hu⟩ := h.ends q hq
    by_cases hqp : q = p
    · subst hqp
      obtain ⟨n, hn⟩ := Machine.exists_remaining hlive
      have hremaining : (x'.threads q).remaining = n := by
        rw [Machine.remaining_of_advance hlive hadvance]
        omega
      rw [hn, Machine.solo, hadvance, ok_bind] at hsolo
      exact ⟨u, hremaining ▸ hsolo, hu⟩
    · -- Another turn still finds its own tape as it was.
      obtain ⟨t', s', hsolo', -, hsame⟩ := (h.isolated q hq).solo (x.threads q).remaining
      rw [hsolo, Except.ok.injEq, Prod.mk.injEq] at hsolo'
      obtain ⟨rfl, rfl⟩ := hsolo'
      obtain ⟨u', hsolo', hu'⟩ := hsame x'.store (hframe q hqp).symm
      rw [hothers q hqp]
      exact ⟨u', hsolo', hu'.symm.trans hu⟩

theorem Heads.play (h : x.Heads m T U N) (order : List Nat) :
    ∃ x', x.play m order = .ok x' ∧ x'.Heads m T U N := by
  induction order generalizing x with
  | nil => exact ⟨x, rfl, h⟩
  | cons p order ih =>
    obtain ⟨x₁, hadvance, h₁⟩ := h.advance p
    obtain ⟨x', hplay, h'⟩ := ih h₁
    refine ⟨x', ?_, h'⟩
    rw [Race.play, List.foldlM_cons, hadvance]
    exact hplay

private theorem Heads.of_finished {p : Nat} (h : x.Heads m T U N) (hp : p < N)
    (hfinished : (x.threads p).Finished) : x.threads p = T p ∧ x.store.AgreeOn p (U p) := by
  obtain ⟨u, hsolo, hu⟩ := h.ends p hp
  rw [Machine.solo_of_finished hfinished, Except.ok.injEq, Prod.mk.injEq] at hsolo
  exact ⟨hsolo.1, hsolo.2 ▸ hu⟩

private theorem finished_of_count {p : Nat} {order : List Nat}
    (hcount : (x.threads p).Finished ∨ (x.threads p).remaining ≤ order.count p)
    (h : x.play m order = .ok x') : (x'.threads p).Finished := by
  induction order generalizing x with
  | nil =>
    obtain rfl := Except.ok.inj h
    obtain hfinished | hremaining := hcount
    · exact hfinished
    · exact .inr (Nat.le_zero.1 hremaining)
  | cons q order ih =>
    rw [Race.play, List.foldlM_cons, bind_eq_ok_iff] at h
    obtain ⟨x₁, hadvance, h⟩ := h
    refine ih ?_ h
    by_cases hlive : (x.threads q).Finished
    · rw [advance_of_finished hlive, Except.ok.injEq] at hadvance
      subst hadvance
      by_cases hqp : q = p
      · exact .inl (hqp ▸ hlive)
      · rwa [List.count_cons_of_ne hqp] at hcount
    · obtain ⟨⟨t, s⟩, ht, -⟩ := bind_eq_ok_iff.1 hadvance
      obtain ⟨x₂, hadvance', rfl, rfl, hothers⟩ := advance_eq_ok ht
      rw [hadvance, Except.ok.injEq] at hadvance'
      subst hadvance'
      by_cases hqp : q = p
      · subst hqp
        have hremaining := hcount.resolve_left hlive
        rw [List.count_cons_self] at hremaining
        rw [Machine.remaining_of_advance hlive ht]
        exact .inr (by omega)
      · rw [List.count_cons_of_ne hqp] at hcount
        rwa [hothers p (Ne.symm hqp)]

end Race

/-! ## The end of a tick -/

namespace World

variable {w : World} {mode : Mode} {budget : Nat} {T : Nat → Thread} {U : Nat → Store}

private theorem race_heads (h : w.Sound) (hout : w.Outcomes mode budget T U)
    (hseparate : w.Separate mode) :
    (w.race mode budget).Heads w.machine T U w.bank.size where
  live p hlive := by
    have hp := (race_inRange h mode budget).live p hlive
    rw [h.programs_eq] at hp
    exact h.bank_size ▸ hp
  isolated p hp := by
    obtain ⟨r, hr⟩ := w.bank.get_ok hp
    rw [race_threads mode budget hr]
    exact isolated_of_separate h hout hseparate hr
  ends p hp := by
    obtain ⟨r, hr⟩ := w.bank.get_ok hp
    rw [race_threads mode budget hr]
    exact ⟨U p, hout.solo p r hr, .refl p _⟩

/-- Once all turns are over, the world is that after the sweep. -/
theorem settle_eq {x : Race} {y : Sweep} (h : w.Sound)
    (hheads : x.Heads w.machine T U w.bank.size) (hx : x.InRange w.store)
    (hy : w.Swept mode T U w.bank.size y) (hsettled : w.Settled x) :
    w.settle x = { w with bank := y.bank, store := y.store, ticks := w.ticks + 1 } := by
  have hsize : y.bank.size = w.bank.size := by
    rw [hy.inRange.size_eq, h.programs_eq, h.bank_size]
  have hstore : x.store = y.store := by
    refine Store.eq_of_agreeOn (hx.shape.trans hy.inRange.shape.symm) fun p hp => ?_
    rw [hx.shape.programs_eq, h.programs_eq, ← h.bank_size] at hp
    exact (hheads.of_finished hp (hsettled p hp)).2.trans (hy.taken p hp).2
  have hbank : (w.settle x).bank = y.bank := by
    refine RegisterBank.eq_of_get ?_ (Array.size_ofFn.trans hsize.symm) fun p hp => ?_
    · rw [hy.inRange.tapeLength_eq, h.tapeLength_eq]
      exact h.bank_tapeLength
    · have hp : p < w.bank.size := Nat.lt_of_lt_of_eq hp Array.size_ofFn
      have hthread := (hheads.of_finished hp (hsettled p hp)).1
      rw [(hy.taken p hp).1, ← hthread, RegisterBank.get_eq_ok_iff]
      simp [settle, hp]
  rw [← hbank, ← hstore]
  rfl

/-- In either mode, if the programs of a reachable world touch different tapes in the
tick in their order, in particular if none of them copies, then every other order of
single instructions succeeds too, and once all turns are over it has led to the same
tapes and registers.  The reports of the turns add up to the same sum in every merge
tree. -/
theorem order_independent (h : w.Reachable) (mode : Mode) :
    (w.CopyFree mode → w.Separate mode) ∧
    (w.Separate mode → ∃ budget stats w', w.budget mode = .ok budget ∧
      w.tickIn mode = .ok (stats, w') ∧
      ∀ order, ∃ x, w.interleave mode order = .ok x ∧
        ((∀ p < w.bank.size, budget ≤ order.count p) → w.Settled x) ∧
        (w.Settled x → w.settle x = w' ∧
          ∀ tree : MergeTree, tree.leaves.Perm (List.range w.bank.size) →
            tree.total (fun p => (x.threads p).stats mode) = stats)) := by
  refine ⟨CopyFree.separate, fun hseparate => ?_⟩
  have hsound := h.sound
  obtain ⟨budget, T, U, hout⟩ := outcomes_exist hsound mode
  obtain ⟨y, hy, hswept⟩ := swept_of_isolated hsound hout (Nat.le_refl _)
    fun p _ r hr => isolated_of_separate hsound hout hseparate hr
  refine ⟨budget, y.stats, { w with bank := y.bank, store := y.store, ticks := w.ticks + 1 },
    hout.budget_eq, ?_, fun order => ?_⟩
  · rw [tickIn_eq hout.budget_eq, tickWith, show Sweep.visitAll _ _ _ = _ from hy]
    rfl
  obtain ⟨x, hplay, hrange⟩ := interleave_ok hsound mode order
  obtain ⟨x', hplay', hheads⟩ := (race_heads hsound hout hseparate).play order
  rw [interleave, hout.budget_eq, ok_bind] at hplay
  rw [hplay, Except.ok.injEq] at hplay'
  subst hplay'
  refine ⟨x, by rw [interleave, hout.budget_eq]; exact hplay, fun hcount p hp => ?_,
    fun hsettled => ⟨settle_eq hsound hheads hrange hswept hsettled, fun tree hleaves => ?_⟩⟩
  · refine Race.finished_of_count (.inr ?_) hplay
    obtain ⟨r, hr⟩ := w.bank.get_ok hp
    rw [race_threads mode budget hr]
    exact hcount p hp
  · rw [tree.total_eq, hswept.stats_eq, TickStats.total_perm (hleaves.map _)]
    congr 1
    refine List.map_congr_left fun p hp => ?_
    rw [(hheads.of_finished (List.mem_range.1 hp) (hsettled p (List.mem_range.1 hp))).1]

/-- Two programs with three instructions each; the first one copies within its own
tape, since its last cell selects the south. -/
def pair : World where
  config := ⟨3, 2, 1, ⟨false, false, some 3⟩, none⟩
  torus := .couple
  store := .couple 43 46 2 62 43 7
  bank := ⟨3, #[.start, .start]⟩
  ticks := 0

theorem order_independent_pair :
    pair.Reachable ∧ pair.Separate .run ∧
      ∃ w' x, pair.tickIn .run = .ok (⟨6, 2, 0⟩, w') ∧
        pair.interleave .run [1, 0, 1, 0, 0, 1] = .ok x ∧ pair.settle x = w' ∧
          (MergeTree.node (.leaf 1) (.node .empty (.leaf 0))).total
            (fun p => (x.threads p).stats .run) = ⟨6, 2, 0⟩ := by
  have hbytes : (#[43, 46, 2, 62, 43, 7] : Array UInt32).map UInt32.toUInt8 =
      #[43, 46, 2, 62, 43, 7] := by simp
  have hbuilt : ofBuffers pair.config #[43, 46, 2, 62, 43, 7] none = .ok pair := by
    simp only [ofBuffers, Store.ofCells, Store.writeCells, hbytes]
    rfl
  have hfirst : pair.touched .run 0 = .ok [0, 0] := rfl
  have hsecond : pair.touched .run 1 = .ok [1] := rfl
  have hseparate : pair.Separate .run := by
    intro p hp q hq hne a b ha hb
    have hp : p < 2 := hp
    have hq : q < 2 := hq
    obtain ⟨rfl, rfl⟩ | ⟨rfl, rfl⟩ : (p = 0 ∧ q = 1) ∨ (p = 1 ∧ q = 0) := by omega
    · obtain rfl := Except.ok.inj (hfirst.symm.trans ha)
      obtain rfl := Except.ok.inj (hsecond.symm.trans hb)
      decide
    · obtain rfl := Except.ok.inj (hsecond.symm.trans ha)
      obtain rfl := Except.ok.inj (hfirst.symm.trans hb)
      decide
  obtain ⟨budget, stats, w', hbudget, htick, horders⟩ :=
    (order_independent (.ofBuffers hbuilt) .run).2 hseparate
  obtain rfl : 3 = budget := Except.ok.inj hbudget
  have hstats : (pair.tickIn .run).map Prod.fst = .ok ⟨6, 2, 0⟩ := rfl
  rw [htick] at hstats
  obtain rfl : stats = ⟨6, 2, 0⟩ := Except.ok.inj hstats
  obtain ⟨x, hplay, hcount, hend⟩ := horders [1, 0, 1, 0, 0, 1]
  obtain ⟨hworld, htrees⟩ := hend (hcount (by decide))
  refine ⟨.ofBuffers hbuilt, hseparate, w', x, htick, hplay, hworld, htrees _ ?_⟩
  decide

end World
end TapeTorus
