import TapeTorus.Proofs.StepRange
import TapeTorus.World

/-!
# Ticks stay on the tape

Turns, sweeps and ticks over tapes and registers in range succeed and leave
tapes and registers in range.  Each level adds one induction to the one below:
a run over its instructions, a sweep over its programs, a sequence over its
ticks.
-/

namespace TapeTorus

namespace RegisterBank

/-- Every triple names cells of a tape of `length` cells. -/
def Within (b : RegisterBank) (length : Nat) : Prop :=
  ∀ program r, b.get program = .ok r → r.Within length

theorem Within.put {b : RegisterBank} {program length : Nat} {r : Registers}
    (hb : b.Within length) (hr : r.Within length) : (b.put program r).Within length := by
  intro q r' hget
  by_cases hq : program = q
  · subst hq
    have hsize := lt_size_of_get hget
    rw [get_put_self (by simpa using hsize), Except.ok.injEq] at hget
    exact hget ▸ hr
  · rw [get_put_of_ne hq] at hget
    exact hb q r' hget

end RegisterBank

/-! ## Turns -/

/-- The turn succeeds on stores shaped like `s₀`, for registers on the tape, and
leaves such a store and such registers. -/
def TurnInRange (turn : Nat → Registers → Store → Except Fault Turn) (s₀ : Store) : Prop :=
  ∀ program r s, program < s₀.programs → r.Within s₀.tapeLength → s.SameShape s₀ →
    ∃ t, turn program r s = .ok t ∧ t.registers.Within s₀.tapeLength ∧ t.store.SameShape s₀

namespace Machine

/-- A run that succeeds keeps the registers on the tape and the shape of the store. -/
theorem runFrom_within {m : Machine} {s : Store} {program : Nat} {r : Registers} {t : Turn}
    {budget done : Nat} (hlength : s.tapeLength ≤ 2 ^ 32) (hp : program < s.programs)
    (hr : r.Within s.tapeLength) (h : m.runFrom program budget done r s = .ok t) :
    t.registers.Within s.tapeLength ∧ t.store.SameShape s := by
  induction budget generalizing done r s with
  | zero =>
    obtain rfl := Except.ok.inj h
    exact ⟨hr, .refl s⟩
  | succ budget ih =>
    rw [runFrom, bind_eq_ok_iff] at h
    obtain ⟨⟨outcome, r', s'⟩, hstep, h⟩ := h
    obtain ⟨hr', hshape⟩ := step_within hlength hp hr hstep
    cases outcome with
    | halted =>
      obtain rfl := Except.ok.inj h
      exact ⟨hr', hshape⟩
    | running =>
      dsimp only at hr' hshape
      rw [← hshape.tapeLength_eq] at hlength hr' ⊢
      rw [← hshape.programs_eq] at hp
      obtain ⟨hwithin, hshape'⟩ := ih hlength hp hr' h
      exact ⟨hwithin, hshape'.trans hshape⟩

theorem runFrom_ok {m : Machine} {s : Store} {program : Nat} {r : Registers} (hfit : m.Fits s)
    (hp : program < s.programs) (hr : r.Within s.tapeLength) (budget done : Nat) :
    ∃ t, m.runFrom program budget done r s = .ok t ∧ t.registers.Within s.tapeLength ∧
      t.store.SameShape s := by
  have hok : ∃ t, m.runFrom program budget done r s = .ok t := by
    induction budget generalizing done r s with
    | zero => exact ⟨_, rfl⟩
    | succ budget ih =>
      obtain ⟨⟨outcome, r', s'⟩, hstep, hr', hshape⟩ := step_ok hfit hp hr
      simp only [runFrom, hstep, ok_bind]
      cases outcome with
      | halted => exact ⟨_, rfl⟩
      | running =>
        exact ih (hfit.of_sameShape hshape) (hshape.programs_eq ▸ hp) (hshape.tapeLength_eq ▸ hr')
          (done + 1)
  obtain ⟨t, ht⟩ := hok
  exact ⟨t, ht, runFrom_within hfit.addressable hp hr ht⟩

theorem stepTurn_inRange {m : Machine} {s₀ : Store} (hfit : m.Fits s₀) :
    TurnInRange m.stepTurn s₀ := by
  intro program r s hp hr hs
  rw [← hs.programs_eq] at hp
  rw [← hs.tapeLength_eq] at hr ⊢
  obtain ⟨x, hstep, hr', hshape⟩ := step_ok (hfit.of_sameShape hs) hp hr
  exact ⟨_, by rw [stepTurn, hstep]; rfl, hr', hshape.trans hs⟩

theorem runProgram_inRange {m : Machine} {s₀ : Store} (hfit : m.Fits s₀) (limit : Nat) :
    TurnInRange (fun program _ s => m.runProgram program limit s) s₀ := by
  intro program r s hp _ hs
  rw [← hs.programs_eq] at hp
  rw [← hs.tapeLength_eq]
  obtain ⟨t, hrun, hr', hshape⟩ := runFrom_ok (hfit.of_sameShape hs) hp
    (Registers.within_start s.tapeLength_pos) limit 0
  exact ⟨t, hrun, hr', hshape.trans hs⟩

end Machine

/-! ## Sweeps -/

namespace Sweep

/-- The bank and the store belong to the programs of `s₀`, with every register
on its tape. -/
structure InRange (x : Sweep) (s₀ : Store) : Prop where
  shape : x.store.SameShape s₀
  size_eq : x.bank.size = s₀.programs
  tapeLength_eq : x.bank.tapeLength = s₀.tapeLength
  within : x.bank.Within s₀.tapeLength

variable {turn : Nat → Registers → Store → Except Fault Turn} {s₀ : Store}

theorem visit_eq_ok {x : Sweep} {program : Nat} {r : Registers} {t : Turn}
    (hr : x.bank.get program = .ok r) (ht : turn program r x.store = .ok t) :
    visit turn x program =
      .ok ⟨x.stats.merge t.stats, x.bank.put program t.registers, t.store⟩ := by
  rw [visit, hr, ok_bind, ht]
  rfl

theorem visit_ok {x : Sweep} {program : Nat} (hturn : TurnInRange turn s₀) (hx : x.InRange s₀)
    (hp : program < s₀.programs) : ∃ x', visit turn x program = .ok x' ∧ x'.InRange s₀ := by
  obtain ⟨r, hr⟩ := x.bank.get_ok (hx.size_eq ▸ hp)
  obtain ⟨t, ht, hwithin, hshape⟩ := hturn program r x.store hp (hx.within _ _ hr) hx.shape
  refine ⟨_, visit_eq_ok hr ht, hshape, ?_, hx.tapeLength_eq, ?_⟩
  · rw [RegisterBank.size_put, hx.size_eq]
  · exact hx.within.put hwithin

theorem visitAll_ok {x : Sweep} {programs : List Nat} (hturn : TurnInRange turn s₀)
    (hx : x.InRange s₀) (hp : ∀ p ∈ programs, p < s₀.programs) :
    ∃ x', visitAll turn programs x = .ok x' ∧ x'.InRange s₀ := by
  induction programs generalizing x with
  | nil => exact ⟨x, rfl, hx⟩
  | cons p programs ih =>
    obtain ⟨x', hvisit, hx'⟩ := visit_ok hturn hx (hp p (by simp))
    obtain ⟨x'', hrest, hx''⟩ := ih hx' fun q hq => hp q (by simp [hq])
    refine ⟨x'', ?_, hx''⟩
    rw [visitAll, List.foldlM_cons, hvisit]
    exact hrest

/-- Turns that are the same in range make the same sweep. -/
theorem visitAll_congr {turn' : Nat → Registers → Store → Except Fault Turn} {x : Sweep}
    {programs : List Nat} (hturn : TurnInRange turn s₀) (hx : x.InRange s₀)
    (hp : ∀ p ∈ programs, p < s₀.programs)
    (heq : ∀ program r s, program < s₀.programs → s.SameShape s₀ →
      turn' program r s = turn program r s) :
    visitAll turn' programs x = visitAll turn programs x := by
  induction programs generalizing x with
  | nil => rfl
  | cons p programs ih =>
    have hlt := hp p (by simp)
    have hvisit : visit turn' x p = visit turn x p := by
      simp only [visit, heq p _ x.store hlt hx.shape]
    obtain ⟨x', hx', hrange⟩ := visit_ok hturn hx hlt
    rw [visitAll, visitAll, List.foldlM_cons, List.foldlM_cons, hvisit, hx', ok_bind, ok_bind]
    exact ih hrange fun q hq => hp q (by simp [hq])

end Sweep

/-! ## Ticks -/

theorem Exec.defaultIterationLimit_eq {tapeLength limit : Nat}
    (h : defaultIterationLimit tapeLength = .ok limit) : limit = max 256 (4 * tapeLength) := by
  rw [Exec.defaultIterationLimit, bind_eq_ok_iff] at h
  obtain ⟨passes, hpasses, h⟩ := h
  obtain rfl := Except.ok.inj h
  rw [(Size.mul_eq_ok_iff.1 hpasses).2, Nat.max_comm]

namespace World

/-- Torus, tapes and registers have the sizes of a valid configuration, and every
register names a cell of its program's tape. -/
structure Sound (w : World) : Prop where
  valid : w.config.validate = .ok ()
  torus_size : w.torus.size = w.config.width * w.config.height
  programs_eq : w.store.programs = w.torus.size
  bank_size : w.bank.size = w.torus.size
  tapeLength_eq : w.store.tapeLength = w.config.tapeLength
  bank_tapeLength : w.bank.tapeLength = w.config.tapeLength
  within : w.bank.Within w.config.tapeLength

theorem Sound.tapeLength_lt {w : World} (h : w.Sound) : w.config.tapeLength < 2 ^ 32 :=
  ((Config.validate_eq_ok_iff _).1 h.valid).1.2

theorem Sound.fits {w : World} (h : w.Sound) : w.machine.Fits w.store where
  programs_eq := h.programs_eq
  addressable := h.tapeLength_eq ▸ Nat.le_of_lt h.tapeLength_lt

theorem Sound.lt_programs {w : World} (h : w.Sound) :
    ∀ p ∈ List.range w.bank.size, p < w.store.programs := by
  intro p hp
  rwa [List.mem_range, h.bank_size, ← h.programs_eq] at hp

theorem Sound.inRange {w : World} (h : w.Sound) (stats : TickStats) :
    (Sweep.mk stats w.bank w.store).InRange w.store where
  shape := .refl _
  size_eq := h.bank_size.trans h.programs_eq.symm
  tapeLength_eq := h.bank_tapeLength.trans h.tapeLength_eq.symm
  within := h.tapeLength_eq ▸ h.within

/-- New tapes and registers in range keep a world sound. -/
theorem Sound.of_inRange {w : World} {x : Sweep} (h : w.Sound) (hx : x.InRange w.store)
    (ticks : Nat) :
    ({ w with bank := x.bank, store := x.store, ticks := ticks } : World).Sound where
  valid := h.valid
  torus_size := h.torus_size
  programs_eq := hx.shape.programs_eq.trans h.programs_eq
  bank_size := hx.size_eq.trans h.programs_eq
  tapeLength_eq := hx.shape.tapeLength_eq.trans h.tapeLength_eq
  bank_tapeLength := hx.tapeLength_eq.trans h.tapeLength_eq
  within := h.tapeLength_eq ▸ hx.within

private theorem tickWith_ok {w : World} {turn : Nat → Registers → Store → Except Fault Turn}
    (h : w.Sound) (hturn : TurnInRange turn w.store) :
    ∃ stats w', w.tickWith turn = .ok (stats, w') ∧ w'.Sound := by
  obtain ⟨x, hx, hrange⟩ := Sweep.visitAll_ok hturn (h.inRange .zero) h.lt_programs
  exact ⟨x.stats, _, by rw [tickWith, hx]; rfl, h.of_inRange hrange _⟩

/-- A tick brings new tapes and registers, and counts itself. -/
theorem tickWith_frame {w w' : World} {stats : TickStats}
    {turn : Nat → Registers → Store → Except Fault Turn}
    (h : w.tickWith turn = .ok (stats, w')) :
    w'.config = w.config ∧ w'.torus = w.torus ∧ w'.ticks = w.ticks + 1 := by
  rw [tickWith, bind_eq_ok_iff] at h
  obtain ⟨x, -, h⟩ := h
  obtain rfl := (Prod.mk.inj (Except.ok.inj h)).2
  exact ⟨rfl, rfl, rfl⟩

theorem exists_turn_of_run {w : World} {z : TickStats × World} (h : w.run = .ok z) :
    ∃ turn, w.tickWith turn = .ok z := by
  rw [run, bind_eq_ok_iff] at h
  obtain ⟨limit, -, h⟩ := h
  exact ⟨_, h⟩

theorem exists_turn_of_tick {w : World} {z : TickStats × World} (h : w.tick = .ok z) :
    ∃ turn, w.tickWith turn = .ok z := by
  rw [tick] at h
  split at h
  · exact ⟨_, h⟩
  · exact exists_turn_of_run h

theorem step_ok {w : World} (h : w.Sound) : ∃ stats w', w.step = .ok (stats, w') ∧ w'.Sound :=
  tickWith_ok h (Machine.stepTurn_inRange h.fits)

theorem iterationLimit_ok {w : World} (h : w.Sound) :
    ∃ limit, w.config.exec.iterationLimit w.config.tapeLength = .ok limit := by
  have hlength := h.tapeLength_lt
  unfold Exec.iterationLimit
  split
  · exact ⟨_, rfl⟩
  · rw [Exec.defaultIterationLimit, Size.mul_eq_ok (by simp only [Size.limit]; omega)]
    exact ⟨_, rfl⟩

theorem run_ok {w : World} (h : w.Sound) : ∃ stats w', w.run = .ok (stats, w') ∧ w'.Sound := by
  obtain ⟨limit, hlimit⟩ := iterationLimit_ok h
  rw [run, hlimit]
  exact tickWith_ok h (Machine.runProgram_inRange h.fits limit)

theorem tick_ok {w : World} (h : w.Sound) : ∃ stats w', w.tick = .ok (stats, w') ∧ w'.Sound := by
  unfold tick
  split
  · exact step_ok h
  · exact run_ok h

theorem runTicksFrom_ok {w : World} (h : w.Sound) (n : Nat) (stats : TickStats) :
    ∃ stats' w', runTicksFrom n stats w = .ok (stats', w') ∧ w'.Sound := by
  induction n generalizing w stats with
  | zero => exact ⟨stats, w, rfl, h⟩
  | succ n ih =>
    obtain ⟨more, w', htick, hw'⟩ := tick_ok h
    obtain ⟨stats', w'', hrest, hw''⟩ := ih hw' (stats.merge more)
    exact ⟨stats', w'', by rw [runTicksFrom, htick]; exact hrest, hw''⟩

end World
end TapeTorus
