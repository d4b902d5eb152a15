import TapeTorus.Proofs.Footprint

/-!
# Turns that keep to their own tape

A turn is isolated if no instruction that it still executes touches another tape.
It then ends in the same way on every store that holds the same tape, and the
other tapes stay as they are, so that instructions of other programs may come
between its own.
-/

namespace TapeTorus

namespace Machine

/-- Executes the next `n` instructions of a turn, as far as it goes on. -/
def solo (m : Machine) (program : Nat) : Nat → Thread → Store → Except Fault (Thread × Store)
  | 0, t, s => return (t, s)
  | n + 1, t, s => do
    let (t, s) ← m.advance program t s
    m.solo program n t s

/-- The neighbours whose tapes the next `n` instructions of a turn touch. -/
def reached (m : Machine) (program : Nat) : Nat → Thread → Store → Except Fault (List Nat)
  | 0, _, _ => return []
  | n + 1, t, s =>
    if t.Finished then return []
    else do
      let q ← m.copied program t.registers s
      let (t, s) ← m.advance program t s
      let rest ← m.reached program n t s
      return q.toList ++ rest

/-- The turn is in range, and its instructions touch no tape but its own. -/
structure Isolated (m : Machine) (program : Nat) (t : Thread) (s : Store) : Prop where
  fits : m.Fits s
  within : t.registers.Within s.tapeLength
  live : ¬t.Finished → program < s.programs
  alone : ∀ l, m.reached program t.remaining t s = .ok l → ∀ q ∈ l, q = program

variable {m : Machine} {program : Nat} {t t' : Thread} {s s' u : Store}

/-! ## Turns that are over -/

theorem solo_of_finished (h : t.Finished) (n : Nat) : m.solo program n t s = .ok (t, s) := by
  induction n with
  | zero => rfl
  | succ n ih =>
    rw [solo, advance_of_finished program s h]
    exact ih

theorem exists_step_of_solo {n : Nat} (hlive : ¬t.Finished)
    (h : m.solo program (n + 1) t s = .ok (t', s')) :
    ∃ x, m.step program t.registers s = .ok x ∧
      m.solo program n (t.next x) x.store = .ok (t', s') := by
  rw [solo, Machine.advance, if_neg hlive, bind_eq_ok_iff] at h
  obtain ⟨⟨t₁, s₁⟩, hadvance, h⟩ := h
  rw [bind_eq_ok_iff] at hadvance
  obtain ⟨x, hstep, hx⟩ := hadvance
  simp only [pure_eq_ok, Except.ok.injEq, Prod.mk.injEq] at hx
  obtain ⟨rfl, rfl⟩ := hx
  exact ⟨x, hstep, h⟩

/-! ## Turns on their way -/

theorem exists_remaining (h : ¬t.Finished) : ∃ n, t.remaining = n + 1 :=
  Nat.exists_eq_add_one_of_ne_zero fun hzero => h (.inr hzero)

theorem remaining_of_advance (h : ¬t.Finished) (hadvance : m.advance program t s = .ok (t', s')) :
    t'.remaining = t.remaining - 1 := by
  rw [advance, if_neg h, bind_eq_ok_iff] at hadvance
  obtain ⟨x, -, hx⟩ := hadvance
  simp only [pure_eq_ok, Except.ok.injEq, Prod.mk.injEq] at hx
  rw [← hx.1, Thread.remaining_next]

private theorem reached_succ {n : Nat} {c : Option Nat} (h : ¬t.Finished)
    (hcopied : m.copied program t.registers s = .ok c)
    (hadvance : m.advance program t s = .ok (t', s')) :
    m.reached program (n + 1) t s = (m.reached program n t' s').map (c.toList ++ ·) := by
  rw [reached, if_neg h, hcopied, ok_bind, hadvance, ok_bind]
  dsimp only
  cases m.reached program n t' s' with
  | error fault => rfl
  | ok l => rfl

theorem solo_ok (hfit : m.Fits s) (hp : ¬t.Finished → program < s.programs)
    (hr : t.registers.Within s.tapeLength) (n : Nat) :
    ∃ t' s', m.solo program n t s = .ok (t', s') := by
  induction n generalizing t s with
  | zero => exact ⟨t, s, rfl⟩
  | succ n ih =>
    by_cases hlive : t.Finished
    · exact ⟨t, s, solo_of_finished hlive _⟩
    · obtain ⟨t₁, s₁, hadvance, hr₁, hshape, -⟩ := advance_ok hfit hp hr
      rw [← hshape.tapeLength_eq] at hr₁
      rw [solo, hadvance, ok_bind]
      exact ih (hfit.of_sameShape hshape) (fun _ => hshape.programs_eq ▸ hp hlive) hr₁

theorem reached_ok (hfit : m.Fits s) (hp : ¬t.Finished → program < s.programs)
    (hr : t.registers.Within s.tapeLength) (n : Nat) :
    ∃ l, m.reached program n t s = .ok l ∧ ∀ q ∈ l, q < s.programs := by
  induction n generalizing t s with
  | zero => exact ⟨[], rfl, by simp⟩
  | succ n ih =>
    by_cases hlive : t.Finished
    · exact ⟨[], if_pos hlive, by simp⟩
    · obtain ⟨t₁, s₁, hadvance, hr₁, hshape, -⟩ := advance_ok hfit hp hr
      obtain ⟨c, hcopied, hc⟩ := copied_ok hfit (hp hlive) hr.1
      rw [← hshape.tapeLength_eq] at hr₁
      obtain ⟨l, hl, hbound⟩ :=
        ih (hfit.of_sameShape hshape) (fun _ => hshape.programs_eq ▸ hp hlive) hr₁
      refine ⟨c.toList ++ l, by rw [reached_succ hlive hcopied hadvance, hl]; rfl, fun q hq => ?_⟩
      rw [List.mem_append, Option.mem_toList] at hq
      obtain hq | hq := hq
      · exact hc q hq
      · exact hshape.programs_eq ▸ hbound q hq

/-- The next instruction of an isolated turn is the same on all stores that agree
on its tape, leaves the other tapes alone, and leaves an isolated turn. -/
theorem Isolated.advance (h : m.Isolated program t s) :
    ∃ t' s', m.advance program t s = .ok (t', s') ∧ m.Isolated program t' s' ∧
      (∀ q, q ≠ program → s'.AgreeOn q s) ∧
      ∀ u, s.AgreeOn program u → m.copied program t.registers s = m.copied program t.registers u ∧
        ∃ u', m.advance program t u = .ok (t', u') ∧ s'.AgreeOn program u' := by
  by_cases hlive : t.Finished
  · refine ⟨t, s, advance_of_finished program s hlive, h, fun q _ => .refl q s, fun u hu => ?_⟩
    exact ⟨copied_agree hu, u, advance_of_finished program u hlive, hu⟩
  · have hp := h.live hlive
    obtain ⟨x, hstep, hr', hshape⟩ := step_ok h.fits hp h.within
    obtain ⟨c, hcopied, -⟩ := copied_ok h.fits hp h.within.1
    obtain ⟨n, hn⟩ := exists_remaining hlive
    have hadvance := advance_of_step hlive hstep
    have hfits' := h.fits.of_sameShape hshape
    have hp' : program < x.store.programs := hshape.programs_eq ▸ hp
    rw [← hshape.tapeLength_eq] at hr'
    obtain ⟨rest, hrest, -⟩ := reached_ok (t := t.next x) hfits' (fun _ => hp') hr' n
    have hreached (l : List Nat) (hl : m.reached program n (t.next x) x.store = .ok l) :
        m.reached program t.remaining t s = .ok (c.toList ++ l) := by
      rw [hn, reached_succ hlive hcopied hadvance, hl]
      rfl
    have halone (q : Nat) (hq : m.copied program t.registers s = .ok (some q)) : q = program := by
      rw [hcopied, Except.ok.injEq] at hq
      exact h.alone _ (hreached rest hrest) q (by simp [hq])
    refine ⟨_, _, hadvance, ⟨hfits', hr', fun _ => hp', fun l hl q hq => ?_⟩, fun q hne => ?_,
      fun u hu => ⟨copied_agree hu, ?_⟩⟩
    · rw [Thread.remaining_next, hn, Nat.add_sub_cancel] at hl
      exact h.alone _ (hreached l hl) q (List.mem_append_right _ hq)
    · exact step_frame h.fits.addressable hp h.within hne
        (fun hq => hne (halone q hq)) hstep
    · obtain ⟨u', hstep', hagree⟩ :=
        step_agree hp h.within.1 hu (fun q hq => halone q hq ▸ hu) hstep
      exact ⟨u', advance_of_step hlive hstep', hagree _ hu⟩

/-! ## Whole turns -/

private theorem Isolated.reached_agree (h : m.Isolated program t s) (hu : s.AgreeOn program u) :
    m.reached program t.remaining t s = m.reached program t.remaining t u := by
  obtain ⟨n, hn⟩ : ∃ n, t.remaining = n := ⟨_, rfl⟩
  induction n generalizing t s u with
  | zero => rw [hn]; rfl
  | succ n ih =>
    by_cases hlive : t.Finished
    · rw [hn, reached, reached, if_pos hlive, if_pos hlive]
    · obtain ⟨t', s', hadvance, hnext, -, hsame⟩ := h.advance
      obtain ⟨hcopied, u', hadvance', hu'⟩ := hsame u hu
      obtain ⟨c, hc, -⟩ := copied_ok h.fits (h.live hlive) h.within.1
      have hremaining : t'.remaining = n := by
        rw [remaining_of_advance hlive hadvance]
        omega
      have hrest := ih hnext hu' hremaining
      rw [hremaining] at hrest
      rw [hn, reached_succ hlive hc hadvance, reached_succ hlive (hcopied ▸ hc) hadvance', hrest]

theorem Isolated.congr (h : m.Isolated program t s) (hu : s.AgreeOn program u) :
    m.Isolated program t u where
  fits := h.fits.of_sameShape hu.shape.symm
  within := hu.shape.tapeLength_eq ▸ h.within
  live hlive := hu.shape.programs_eq ▸ h.live hlive
  alone l hl := h.alone l (h.reached_agree hu ▸ hl)

/-- An isolated turn is the same on all stores that agree on its tape and leaves the
other tapes alone. -/
theorem Isolated.solo (h : m.Isolated program t s) (n : Nat) :
    ∃ t' s', m.solo program n t s = .ok (t', s') ∧
      (∀ q, q ≠ program → s'.AgreeOn q s) ∧
      ∀ u, s.AgreeOn program u →
        ∃ u', m.solo program n t u = .ok (t', u') ∧ s'.AgreeOn program u' := by
  induction n generalizing t s with
  | zero => exact ⟨t, s, rfl, fun q _ => .refl q s, fun u hu => ⟨u, rfl, hu⟩⟩
  | succ n ih =>
    obtain ⟨t₁, s₁, hadvance, hnext, hframe, hsame⟩ := h.advance
    obtain ⟨t', s', hsolo, hframe', hsame'⟩ := ih hnext
    refine ⟨t', s', by rw [Machine.solo, hadvance]; exact hsolo,
      fun q hq => (hframe' q hq).trans (hframe q hq), fun u hu => ?_⟩
    obtain ⟨-, u₁, hadvance', hu₁⟩ := hsame u hu
    obtain ⟨u', hsolo', hu'⟩ := hsame' u₁ hu₁
    exact ⟨u', by rw [Machine.solo, hadvance']; exact hsolo', hu'⟩

/-! ## Turns of the two modes -/

/-- A run is the turn of a program on its own. -/
theorem runFrom_of_solo {budget done : Nat} {r : Registers}
    (h : m.solo program budget ⟨r, done, budget, false⟩ s = .ok (t', s')) :
    m.runFrom program budget done r s = .ok ⟨t'.stats .run, t'.registers, s'⟩ := by
  induction budget generalizing done r s with
  | zero =>
    simp only [Machine.solo, pure_eq_ok, Except.ok.injEq, Prod.mk.injEq] at h
    obtain ⟨rfl, rfl⟩ := h
    rfl
  | succ budget ih =>
    have hlive : ¬(⟨r, done, budget + 1, false⟩ : Thread).Finished := by
      simp [Thread.Finished]
    obtain ⟨⟨outcome, r₁, s₁⟩, hstep, hrest⟩ := exists_step_of_solo hlive h
    rw [runFrom, show m.step program r s = _ from hstep, ok_bind]
    cases outcome with
    | running => exact ih hrest
    | halted =>
      rw [solo_of_finished (.inl rfl)] at hrest
      simp only [Except.ok.injEq, Prod.mk.injEq] at hrest
      obtain ⟨rfl, rfl⟩ := hrest
      rfl

theorem stepTurn_of_solo {r : Registers}
    (h : m.solo program 1 (.fresh 1 r) s = .ok (t', s')) :
    m.stepTurn program r s = .ok ⟨t'.stats .step, t'.registers, s'⟩ := by
  have hlive : ¬(Thread.fresh 1 r).Finished := by
    simp [Thread.Finished, Thread.fresh]
  obtain ⟨⟨outcome, r₁, s₁⟩, hstep, hrest⟩ := exists_step_of_solo hlive h
  simp only [Machine.solo, pure_eq_ok, Except.ok.injEq, Prod.mk.injEq] at hrest
  obtain ⟨rfl, rfl⟩ := hrest
  rw [stepTurn, show m.step program r s = _ from hstep, ok_bind]
  cases outcome with
  | running => rfl
  | halted => rfl

end Machine
end TapeTorus
