import TapeTorus.Proofs.Reachable

/-!
# Runs are persistent stepping, cut at the first end of the tape

A run restarts the program and stops where the pointer passes the end of the
tape; with persistent registers the pointer starts again from the first cell.  Up
to there both take the same steps.  A pointer that stands at the first cell has
passed the end, since no jump leads behind a bracket to it.
-/

namespace TapeTorus

/-- The program has halted, or its pointer is back at the first cell. -/
def Stepped.Ends (x : Stepped) : Prop := x.outcome = .halted ∨ x.registers.ip = 0

namespace Machine

/-- The machine with registers that persist. -/
def persistent (m : Machine) : Machine := { m with exec := { m.exec with persist := true } }

/-- What `n` consecutive steps leave behind, whatever their outcomes. -/
def after (m : Machine) (program : Nat) :
    Nat → Registers → Store → Except Fault (Registers × Store)
  | 0, r, s => return (r, s)
  | n + 1, r, s => do
    let x ← m.step program r s
    m.after program n x.registers x.store

/-- The step that comes after `n` consecutive steps. -/
def nthStep (m : Machine) (program : Nat) : Nat → Registers → Store → Except Fault Stepped
  | 0, r, s => m.step program r s
  | n + 1, r, s => do
    let x ← m.step program r s
    m.nthStep program n x.registers x.store

variable {m : Machine} {program : Nat} {r : Registers} {s : Store}

/-! ## One step -/

/-- A persistent step moves the same way.  Where a run halts it halts, too, or has
come back to the first cell, and it does neither where a run goes on. -/
theorem persistent_step {x : Stepped} (hlength : s.tapeLength ≤ 2 ^ 32)
    (hp : program < s.programs) (hr : r.Within s.tapeLength)
    (h : m.step program r s = .ok x) :
    ∃ y, m.persistent.step program r s = .ok y ∧ y.registers = x.registers ∧ y.store = x.store ∧
      (m.exec.persist = false → (x.outcome = .halted ↔ y.Ends)) := by
  rw [step, bind_eq_ok_iff] at h
  obtain ⟨e, he, h⟩ := h
  have he' : m.persistent.execute program r s = .ok e := he
  rw [step, he', ok_bind]
  cases e with
  | none =>
    obtain rfl := Except.ok.inj h
    exact ⟨_, rfl, rfl, rfl, fun _ => iff_of_true rfl (.inl rfl)⟩
  | some e =>
    obtain ⟨position, r', s'⟩ := e
    obtain ⟨hposition, -, hshape⟩ := execute_within hlength hp hr he
    rw [← hshape.tapeLength_eq] at hlength hposition
    dsimp only at h ⊢
    rw [proceed_eq_ok r' hposition, Except.ok.injEq] at h
    rw [proceed_eq_ok r' hposition]
    refine ⟨_, rfl, ?_⟩
    rw [← h]
    by_cases hlast : position + 1 = s'.tapeLength
    · rw [if_pos hlast, if_pos hlast]
      refine ⟨rfl, rfl, fun hpersist => ?_⟩
      exact iff_of_true (by simp [hpersist]) (.inr rfl)
    · rw [if_neg hlast, if_neg hlast]
      refine ⟨rfl, rfl, fun _ => ?_⟩
      have hnext : (UInt32.ofNat (position + 1)).toNat = position + 1 :=
        Registers.toNat_ofNat (by omega)
      have hne : UInt32.ofNat (position + 1) ≠ 0 := by
        intro hzero
        rw [hzero] at hnext
        exact absurd hnext (by simp)
      exact iff_of_false (by simp) fun hends => hends.elim (by simp) hne

/-! ## Many steps -/

private theorem persistent_after {z : Registers × Store} {n : Nat} (hlength : s.tapeLength ≤ 2 ^ 32)
    (hp : program < s.programs) (hr : r.Within s.tapeLength)
    (h : m.after program n r s = .ok z) : m.persistent.after program n r s = .ok z := by
  induction n generalizing r s with
  | zero => exact h
  | succ n ih =>
    rw [after, bind_eq_ok_iff] at h
    obtain ⟨x, hstep, h⟩ := h
    obtain ⟨hr', hshape⟩ := step_within hlength hp hr hstep
    obtain ⟨y, hstep', hregisters, hstore, -⟩ := persistent_step hlength hp hr hstep
    rw [after, hstep', ok_bind, hregisters, hstore]
    rw [← hshape.tapeLength_eq] at hlength hr'
    exact ih hlength (hshape.programs_eq ▸ hp) hr' h

/-- A run takes as many steps as it reports. -/
theorem after_of_runFrom {t : Turn} {budget done : Nat}
    (h : m.runFrom program budget done r s = .ok t) :
    ∃ k, t.stats.instructions = done + k ∧ m.after program k r s = .ok (t.registers, t.store) := by
  induction budget generalizing done r s with
  | zero =>
    obtain rfl := Except.ok.inj h
    exact ⟨0, rfl, rfl⟩
  | succ budget ih =>
    rw [runFrom, bind_eq_ok_iff] at h
    obtain ⟨⟨outcome, r', s'⟩, hstep, h⟩ := h
    cases outcome with
    | halted =>
      obtain rfl := Except.ok.inj h
      exact ⟨1, rfl, by rw [after, hstep]; rfl⟩
    | running =>
      obtain ⟨k, hk, hafter⟩ := ih h
      exact ⟨k + 1, by omega, by rw [after, hstep]; exact hafter⟩

private theorem nthStep_succ {x : Stepped} (h : m.step program r s = .ok x) (n : Nat) :
    m.nthStep program (n + 1) r s = m.nthStep program n x.registers x.store := by
  rw [nthStep, h, ok_bind]

/-- With persistent registers, the steps of a run do not end before the last one.
That one ends if the run halts, and does not if the bound stops it. -/
theorem nthStep_of_runFrom {t : Turn} {budget done : Nat} (hpersist : m.exec.persist = false)
    (hlength : s.tapeLength ≤ 2 ^ 32) (hp : program < s.programs) (hr : r.Within s.tapeLength)
    (h : m.runFrom program budget done r s = .ok t) :
    ∃ k, t.stats.instructions = done + k ∧
      (∀ i, i + 1 < k → ∃ y, m.persistent.nthStep program i r s = .ok y ∧ ¬y.Ends) ∧
      ((t.stats.halted = 1 ∧ t.stats.exhausted = 0 ∧ ∃ last y, k = last + 1 ∧
          m.persistent.nthStep program last r s = .ok y ∧ y.Ends) ∨
        (t.stats.halted = 0 ∧ t.stats.exhausted = 1 ∧ k = budget ∧
          ∀ i < k, ∃ y, m.persistent.nthStep program i r s = .ok y ∧ ¬y.Ends)) := by
  induction budget generalizing done r s with
  | zero =>
    obtain rfl := Except.ok.inj h
    exact ⟨0, rfl, fun i hi => by omega, .inr ⟨rfl, rfl, rfl, fun i hi => by omega⟩⟩
  | succ budget ih =>
    rw [runFrom, bind_eq_ok_iff] at h
    obtain ⟨⟨outcome, r', s'⟩, hstep, h⟩ := h
    obtain ⟨hr', hshape⟩ := step_within hlength hp hr hstep
    obtain ⟨y, hstep', hregisters, hstore, hends⟩ := persistent_step hlength hp hr hstep
    have hends := hends hpersist
    dsimp only at hr' hshape hregisters hstore hends
    cases outcome with
    | halted =>
      obtain rfl := Except.ok.inj h
      exact ⟨1, rfl, fun i hi => by omega, .inl ⟨rfl, rfl, 0, y, rfl, hstep', hends.1 rfl⟩⟩
    | running =>
      have hy : ¬y.Ends := fun hy => by simpa using hends.2 hy
      rw [← hshape.tapeLength_eq] at hlength hr'
      obtain ⟨k, hk, hbefore, hlast⟩ := ih hlength (hshape.programs_eq ▸ hp) hr' h
      have hnext (n : Nat) : m.persistent.nthStep program (n + 1) r s =
          m.persistent.nthStep program n r' s' := by
        rw [nthStep_succ hstep', hregisters, hstore]
      refine ⟨k + 1, by omega, fun i hi => ?_, ?_⟩
      · cases i with
        | zero => exact ⟨y, hstep', hy⟩
        | succ i => exact hnext i ▸ hbefore i (by omega)
      · obtain ⟨hhalted, hexhausted, last, z, rfl, hz, hzends⟩ | ⟨hhalted, hexhausted, rfl, hall⟩ :=
          hlast
        · exact .inl ⟨hhalted, hexhausted, last + 1, z, rfl, (hnext last).trans hz, hzends⟩
        · refine .inr ⟨hhalted, hexhausted, rfl, fun i hi => ?_⟩
          cases i with
          | zero => exact ⟨y, hstep', hy⟩
          | succ i => exact hnext i ▸ hall i (by omega)

/-- A turn of as many persistent steps from the start as a run reports. -/
def steppingTurn (m : Machine) (limit program : Nat) (s : Store) : Except Fault Turn := do
  let t ← m.runProgram program limit s
  let (r, s) ← m.persistent.after program t.stats.instructions .start s
  return ⟨t.stats, r, s⟩

private theorem steppingTurn_eq {limit : Nat} (hlength : s.tapeLength ≤ 2 ^ 32)
    (hp : program < s.programs) {t : Turn} (h : m.runProgram program limit s = .ok t) :
    m.persistent.after program t.stats.instructions .start s = .ok (t.registers, t.store) ∧
      m.steppingTurn limit program s = .ok t := by
  obtain ⟨k, hk, hafter⟩ := after_of_runFrom h
  have hpersistent :=
    persistent_after hlength hp (Registers.within_start s.tapeLength_pos) hafter
  rw [← Nat.zero_add k, ← hk] at hpersistent
  exact ⟨hpersistent, by rw [steppingTurn, h, ok_bind, hpersistent]; rfl⟩

end Machine

namespace World

private theorem tickWith_steppingTurn {w : World} (h : w.Sound) (limit : Nat) :
    w.tickWith (fun program _ s => w.machine.steppingTurn limit program s) =
      w.tickWith fun program _ s => w.machine.runProgram program limit s := by
  rw [tickWith, tickWith, Sweep.visitAll_congr (Machine.runProgram_inRange h.fits limit)
    (h.inRange .zero) h.lt_programs]
  intro program r s hprogram hshape
  have hlength : s.tapeLength ≤ 2 ^ 32 := (h.fits.of_sameShape hshape).addressable
  rw [← hshape.programs_eq] at hprogram
  obtain ⟨t, ht, -⟩ := Machine.runFrom_ok (h.fits.of_sameShape hshape) hprogram
    (Registers.within_start s.tapeLength_pos) limit 0
  exact (Machine.steppingTurn_eq hlength hprogram ht).2.trans ht.symm

/-- A run reports `k` instructions and leaves what `k` steps with persistent registers
leave.  None of them but the last one halts or comes back to the first cell.  The
last one does if the run halts, and does not if the run exhausts its limit, which
is then `k`.  So a tick of runs is a tick of that many persistent steps from the
start, in the order of the programs.  Tapes have at most `2 ^ 32` cells (`Machine.Fits`), as
those of every accepted configuration do. -/
theorem run_cuts_persistent_steps :
    (∀ (m : Machine) (program limit : Nat) (s : Store), m.Fits s → program < s.programs →
      1 ≤ limit → m.exec.persist = false →
        ∃ t, m.runProgram program limit s = .ok t ∧
          m.persistent.after program t.stats.instructions .start s =
            .ok (t.registers, t.store) ∧
          (∀ i, i + 1 < t.stats.instructions →
            ∃ y, m.persistent.nthStep program i .start s = .ok y ∧ ¬y.Ends) ∧
          ∃ last y, t.stats.instructions = last + 1 ∧
            m.persistent.nthStep program last .start s = .ok y ∧
            ((t.stats.halted = 1 ∧ t.stats.exhausted = 0 ∧ y.Ends) ∨
              (t.stats.halted = 0 ∧ t.stats.exhausted = 1 ∧ t.stats.instructions = limit ∧
                ¬y.Ends))) ∧
    (∀ w : World, w.Reachable → ∃ limit stats w',
      w.config.exec.iterationLimit w.config.tapeLength = .ok limit ∧
        w.run = .ok (stats, w') ∧
          w.tickWith (fun program _ s => w.machine.steppingTurn limit program s) =
            .ok (stats, w')) := by
  constructor
  · intro m program limit s hfit hp hlimit hpersist
    have hwithin := Registers.within_start s.tapeLength_pos
    obtain ⟨t, ht, -⟩ := Machine.runFrom_ok hfit hp hwithin limit 0
    refine ⟨t, ht, (Machine.steppingTurn_eq hfit.addressable hp ht).1, ?_⟩
    obtain ⟨k, hk, hbefore, hlast⟩ :=
      Machine.nthStep_of_runFrom hpersist hfit.addressable hp hwithin ht
    rw [Nat.zero_add] at hk
    rw [hk]
    refine ⟨hbefore, ?_⟩
    obtain ⟨hhalted, hexhausted, last, y, rfl, hy, hends⟩ | ⟨hhalted, hexhausted, rfl, hall⟩ :=
      hlast
    · exact ⟨last, y, rfl, hy, .inl ⟨hhalted, hexhausted, hends⟩⟩
    · obtain ⟨last, rfl⟩ := Nat.exists_eq_add_of_le' hlimit
      obtain ⟨y, hy, hends⟩ := hall last (by omega)
      exact ⟨last, y, rfl, hy, .inr ⟨hhalted, hexhausted, rfl, hends⟩⟩
  · intro w h
    obtain ⟨limit, hlimit⟩ := iterationLimit_ok h.sound
    obtain ⟨stats, w', hrun, -⟩ := run_ok h.sound
    refine ⟨limit, stats, w', hlimit, hrun, ?_⟩
    rw [tickWith_steppingTurn h.sound, ← hrun, run, hlimit, ok_bind]

/-- One program, halted by the zero byte, whose registers do not persist. -/
def restarting : Machine := ⟨.lone, ⟨false, true, none⟩⟩

/-- The tape `>[-]`, whose loop erases its own opening bracket. -/
def erasing : Store :=
  ⟨4, 1, #[62, 91, 45, 93], by decide, Nat.one_pos, rfl, by decide⟩

/-- The closing bracket without a partner halts the run on the last cell, unless the
limit stops it before. -/
theorem run_cuts_persistent_steps_erasing :
    (∃ t y, restarting.runProgram 0 9 erasing = .ok t ∧ t.stats = ⟨4, 1, 0⟩ ∧
      restarting.persistent.after 0 4 .start erasing = .ok (t.registers, t.store) ∧
        restarting.persistent.nthStep 0 3 .start erasing = .ok y ∧ y.Ends) ∧
    (∃ t y, restarting.runProgram 0 2 erasing = .ok t ∧ t.stats = ⟨2, 0, 1⟩ ∧
      restarting.persistent.nthStep 0 1 .start erasing = .ok y ∧ ¬y.Ends) ∧
    ∃ w limit stats w', ofConfig ⟨3, 2, 1, .runToCompletion, none⟩ = .ok w ∧
      w.run = .ok (stats, w') ∧
        w.tickWith (fun program _ s => w.machine.steppingTurn limit program s) =
          .ok (stats, w') := by
  have hfit : restarting.Fits erasing := ⟨rfl, by decide⟩
  refine ⟨?_, ?_, ?_⟩
  · have hstats : (restarting.runProgram 0 9 erasing).map Turn.stats = .ok ⟨4, 1, 0⟩ := rfl
    obtain ⟨t, ht, hafter, -, last, y, hlast, hy, hends⟩ :=
      run_cuts_persistent_steps.1 restarting 0 9 erasing hfit (by decide) (by decide) rfl
    rw [ht] at hstats
    have hstats : t.stats = ⟨4, 1, 0⟩ := Except.ok.inj hstats
    rw [hstats] at hafter hlast hends
    obtain rfl : 3 = last := Nat.succ.inj hlast
    exact ⟨t, y, ht, hstats, hafter, hy, by simpa using hends⟩
  · have hstats : (restarting.runProgram 0 2 erasing).map Turn.stats = .ok ⟨2, 0, 1⟩ := rfl
    obtain ⟨t, ht, -, -, last, y, hlast, hy, hends⟩ :=
      run_cuts_persistent_steps.1 restarting 0 2 erasing hfit (by decide) (by decide) rfl
    rw [ht] at hstats
    have hstats : t.stats = ⟨2, 0, 1⟩ := Except.ok.inj hstats
    rw [hstats] at hlast hends
    obtain rfl : 1 = last := Nat.succ.inj hlast
    exact ⟨t, y, ht, hstats, hy, by simpa using hends⟩
  · have hbuilt : ofConfig ⟨3, 2, 1, .runToCompletion, none⟩ = .ok _ := rfl
    obtain ⟨limit, stats, w', -, hrun, htick⟩ := run_cuts_persistent_steps.2 _ (.ofConfig hbuilt)
    exact ⟨_, limit, stats, w', hbuilt, hrun, htick⟩

end World
end TapeTorus
