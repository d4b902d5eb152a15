import TapeTorus.Proofs.History
import TapeTorus.Proofs.Trace

/-!
# The accounts of ticks

What a tick reports adds up.  Every program of a run tick has either halted or been stopped,
and has executed at least one instruction and at most as many as the limit allows.  A step
tick executes one instruction for each program.  Several ticks report the sums of what the
single ones report, in whatever portions they are run (`World.ticks_account`).
-/

namespace TapeTorus

namespace TickRecord

/-- An instruction of the tick has halted the program. -/
def halts (k : TickRecord) (program : Nat) : Bool :=
  (k.own program).any (·.result.outcome = .halted)

theorem halts_of_own (k : TickRecord) {program : Nat} {e : Executed} (h : k.own program = [e]) :
    k.halts program = true ↔ e.result.outcome = .halted := by
  simp [halts, h]

end TickRecord

namespace TickStats

theorem total_eq (l : List TickStats) : total l =
    ⟨(l.map (·.instructions)).sum, (l.map (·.halted)).sum, (l.map (·.exhausted)).sum⟩ := by
  induction l with
  | nil => rfl
  | cons a l ih => rw [total_cons, ih]; rfl

/-- What a turn of so many instructions reports. -/
def ofTurn (mode : Mode) (instructions : Nat) (halted : Bool) : TickStats :=
  ⟨instructions, if halted then 1 else 0, if mode = .run ∧ halted = false then 1 else 0⟩

private theorem total_ofTurn {α : Type} (mode : Mode) (count : α → Nat) (halted : α → Bool)
    (l : List α) : total (l.map fun a => ofTurn mode (count a) (halted a)) =
      ⟨(l.map count).sum, l.countP halted, l.countP fun a => mode = .run ∧ halted a = false⟩ := by
  induction l with
  | nil => rfl
  | cons a l ih =>
    rw [List.map_cons, total_cons, ih, List.countP_cons, List.countP_cons, List.map_cons,
      List.sum_cons]
    simp only [ofTurn, merge, decide_eq_true_eq, TickStats.mk.injEq, true_and]
    omega

/-- What runs of so many programs with the limit may report. -/
structure OfRuns (stats : TickStats) (programs limit : Nat) : Prop where
  /-- Every program has either halted or been stopped. -/
  ended : stats.halted + stats.exhausted = programs
  /-- Every program has executed an instruction, and those that were stopped all that the limit
  allows. -/
  least : programs + stats.exhausted * (limit - 1) ≤ stats.instructions
  most : stats.instructions ≤ programs * limit

variable {limit : Nat}

theorem OfRuns.merge {a b : TickStats} {n k : Nat} (ha : a.OfRuns n limit)
    (hb : b.OfRuns k limit) : (a.merge b).OfRuns (n + k) limit := by
  obtain ⟨hended, hleast, hmost⟩ := ha
  obtain ⟨hended', hleast', hmost'⟩ := hb
  refine ⟨?_, ?_, ?_⟩ <;> simp only [TickStats.merge, Nat.add_mul] <;> omega

theorem OfRuns.total {l : List TickStats} (h : ∀ stats ∈ l, stats.OfRuns 1 limit) :
    (total l).OfRuns l.length limit := by
  induction l with
  | nil => exact ⟨rfl, by simp [zero], Nat.zero_le _⟩
  | cons stats l ih =>
    obtain ⟨hfirst, hrest⟩ := List.forall_mem_cons.1 h
    rw [total_cons, List.length_cons, Nat.add_comm]
    exact hfirst.merge (ih hrest)

private theorem ofRuns_ofTurn {instructions : Nat} {halted : Bool} (hfirst : 1 ≤ instructions)
    (hlast : instructions ≤ limit) (hstopped : halted = false → instructions = limit) :
    (ofTurn .run instructions halted).OfRuns 1 limit := by
  cases halted with
  | true => exact ⟨rfl, by simp [ofTurn, hfirst], by simp [ofTurn, hlast]⟩
  | false =>
    obtain rfl := hstopped rfl
    exact ⟨rfl, by simp [ofTurn]; omega, by simp [ofTurn]⟩

end TickStats

/-! ## The account of a turn -/

theorem Thread.stats_eq (mode : Mode) (t : Thread) :
    t.stats mode = .ofTurn mode t.executed t.halted := by
  cases mode <;> simp only [stats, TickStats.ofTurn] <;> cases t.halted <;> rfl

namespace Machine.Drives

variable {m : Machine} {t t' : Thread} {l : List Executed} {r : Registers} {budget : Nat}

theorem counts (h : m.Drives t l t') :
    t'.executed = t.executed + l.length ∧ t'.remaining + l.length = t.remaining := by
  induction h with
  | nil => exact ⟨rfl, rfl⟩
  | @cons t t' e l hlive _ _ _ ih =>
    have hpos : t.remaining ≠ 0 := fun h => hlive (.inr h)
    simp only [Thread.next] at ih
    rw [List.length_cons]
    omega

/-- A turn that has halted has done so at one of its instructions. -/
theorem halted_eq (h : m.Drives t l t') :
    t'.halted = (t.halted || l.any (·.result.outcome = .halted)) := by
  induction h with
  | nil => rw [List.any_nil, Bool.or_false]
  | @cons t t' e l hlive _ _ _ ih =>
    have hrunning : t.halted = false := Bool.eq_false_iff.2 fun h => hlive (.inl h)
    rw [ih, List.any_cons, hrunning, Bool.false_or]
    rfl

private theorem length_pos (h : m.Drives (.fresh budget r) l t) (hbudget : 1 ≤ budget)
    (ht : t.Finished) : 1 ≤ l.length := by
  cases h with
  | nil => simp [Thread.Finished, Thread.fresh, Nat.ne_of_gt hbudget] at ht
  | cons => exact Nat.succ_le_succ (Nat.zero_le _)

end Machine.Drives

/-! ## The account of a tick -/

namespace World

variable {w w' : World} {mode : Mode} {k : TickRecord} {budget limit : Nat} {stats : TickStats}

theorem TickTrace.stats_eq (htick : w.TickTrace mode k w') :
    k.stats = .total ((List.range w.bank.size).map fun p =>
      .ofTurn mode (k.own p).length (k.halts p)) := by
  obtain ⟨budget, x, -, htrace, -, -, hstats⟩ := htick
  rw [hstats]
  refine congrArg TickStats.total (List.map_congr_left fun p hp => ?_)
  obtain ⟨r, hr⟩ := w.bank.get_ok (List.mem_range.1 hp)
  have hdrives := htrace.drives p
  rw [race_threads mode budget hr] at hdrives
  have hexecuted : (x.threads p).executed = 0 + (k.own p).length := hdrives.counts.1
  have hhalted : (x.threads p).halted = (false || k.halts p) := hdrives.halted_eq
  rw [Thread.stats_eq, hexecuted, hhalted, Nat.zero_add, Bool.false_or]

private theorem TickTrace.own_length (htick : w.TickTrace mode k w')
    (hbudget : w.budget mode = .ok budget)
    (hpos : 1 ≤ budget) {p : Nat} (hp : p < w.bank.size) :
    1 ≤ (k.own p).length ∧ (k.own p).length ≤ budget ∧
      (k.halts p = false → (k.own p).length = budget) := by
  obtain ⟨r, hr⟩ := w.bank.get_ok hp
  obtain ⟨budget', t, hbudget', ht, hdrives, -⟩ := htick.drives hr
  obtain rfl : budget = budget' := Except.ok.inj (hbudget.symm.trans hbudget')
  have hremaining : t.remaining + (k.own p).length = budget := hdrives.counts.2
  refine ⟨hdrives.length_pos hpos ht, by omega, fun hrunning => ?_⟩
  have hhalted : t.halted = (false || k.halts p) := hdrives.halted_eq
  rw [hrunning] at hhalted
  have hspent : t.remaining = 0 := ht.resolve_left (by simp [hhalted])
  omega

theorem TickTrace.halted_eq (htick : w.TickTrace mode k w') :
    k.stats.halted = (List.range w.bank.size).countP k.halts := by
  rw [htick.stats_eq, TickStats.total_ofTurn]

private theorem TickTrace.ofRuns (htick : w.TickTrace .run k w')
    (hlimit : w.budget .run = .ok limit)
    (hpos : 1 ≤ limit) : k.stats.OfRuns w.bank.size limit := by
  have hall : ∀ stats ∈ (List.range w.bank.size).map fun p =>
      TickStats.ofTurn .run (k.own p).length (k.halts p), stats.OfRuns 1 limit := by
    intro stats hmem
    obtain ⟨p, hp, rfl⟩ := List.mem_map.1 hmem
    obtain ⟨hfirst, hlast, hstopped⟩ := htick.own_length hlimit hpos (List.mem_range.1 hp)
    exact TickStats.ofRuns_ofTurn hfirst hlast hstopped
  have htotal := TickStats.OfRuns.total hall
  rwa [← htick.stats_eq, List.length_map, List.length_range] at htotal

private theorem TickTrace.step_stats (htick : w.TickTrace .step k w') :
    k.stats = ⟨w.bank.size, (List.range w.bank.size).countP k.halts, 0⟩ := by
  have hbudget : w.budget .step = .ok 1 := rfl
  have hsingle : ∀ p ∈ List.range w.bank.size, (k.own p).length = 1 := by
    intro p hp
    obtain ⟨hfirst, hlast, -⟩ := htick.own_length hbudget (Nat.le_refl 1) (List.mem_range.1 hp)
    exact Nat.le_antisymm hlast hfirst
  rw [htick.stats_eq, TickStats.total_ofTurn, List.map_congr_left hsingle]
  simp

/-! ## Several ticks -/

private theorem one_le_iterationLimit (h : w.Sound)
    (hlimit : w.config.exec.iterationLimit w.config.tapeLength = .ok limit) : 1 ≤ limit := by
  have hset : w.config.exec.maxIterations ≠ some 0 :=
    ((Config.validate_eq_ok_iff _).1 h.valid).2.2.2.2.2
  rw [Exec.iterationLimit] at hlimit
  split at hlimit
  · rename_i n hn
    obtain rfl := Except.ok.inj hlimit
    exact Nat.pos_of_ne_zero fun hzero => hset (hzero ▸ hn)
  · rw [Exec.defaultIterationLimit_eq hlimit]
    omega

private theorem runTicksFrom_eq (ticks : Nat) (stats : TickStats) (w : World) :
    runTicksFrom ticks stats w = (do
      let (more, w') ← w.runTicks ticks
      return (stats.merge more, w')) := by
  induction ticks generalizing stats w with
  | zero => rfl
  | succ ticks ih =>
    rw [runTicks, runTicksFrom, runTicksFrom]
    cases w.tick with
    | error fault => rfl
    | ok z =>
      simp only [ok_bind, TickStats.zero_merge]
      rw [ih, ih z.1]
      cases z.2.runTicks ticks with
      | error fault => rfl
      | ok z' => simp only [ok_bind, pure_eq_ok, TickStats.merge_assoc]

private theorem runTicksFrom_add (m n : Nat) (stats : TickStats) (w : World) :
    runTicksFrom (m + n) stats w = (do
      let (stats, v) ← runTicksFrom m stats w
      runTicksFrom n stats v) := by
  induction m generalizing stats w with
  | zero => rw [Nat.zero_add]; rfl
  | succ m ih =>
    rw [Nat.succ_add, runTicksFrom, runTicksFrom, bind_assoc]
    exact bind_congr fun z => ih _ _

/-- Ticks in two portions are the ticks of both, and so is what they report. -/
theorem runTicks_add (w : World) (m n : Nat) :
    w.runTicks (m + n) = (do
      let (stats, v) ← w.runTicks m
      let (more, w') ← v.runTicks n
      return (stats.merge more, w')) := by
  rw [runTicks, runTicksFrom_add]
  exact bind_congr fun z => runTicksFrom_eq n z.1 z.2

private theorem runTicks_eq_total {report : Nat → TickStats}
    (hreport : ∀ i, (w.after i).tick = .ok (report i, w.after (i + 1))) (n : Nat) :
    w.runTicks n = .ok (.total ((List.range n).map report), w.after n) := by
  induction n with
  | zero => rfl
  | succ n ih =>
    have hlast : (w.after n).runTicks 1 = .ok (report n, w.after (n + 1)) := by
      rw [runTicks, runTicksFrom, hreport, ok_bind]
      simp only [TickStats.zero_merge, runTicksFrom]
    rw [runTicks_add, ih, ok_bind]
    dsimp only
    rw [hlast, ok_bind, List.range_succ, List.map_append, TickStats.total_append]
    rfl

private theorem ticks_after {report : Nat → TickStats}
    (hreport : ∀ i, (w.after i).tick = .ok (report i, w.after (i + 1))) (n : Nat) :
    (w.after n).ticks = w.ticks + n := by
  induction n with
  | zero => rfl
  | succ n ih =>
    obtain ⟨turn, htick⟩ := exists_turn_of_tick (hreport n)
    rw [(tickWith_frame htick).2.2, ih, Nat.add_assoc]

/-- Ticks of a reachable world, in whatever order the programs execute their instructions.
In a run tick every program either halts or is stopped at the limit, which is positive, and
those that are stopped have executed as many instructions as it allows.  In a step tick every
program executes one instruction, and those that halt at it are counted.  Several ticks in
the order of the programs report the sums of what the single ones report, and in two portions
they do and report the same as at once. -/
theorem ticks_account {w : World} (h : w.Reachable) :
    (∃ limit, w.config.exec.iterationLimit w.config.tapeLength = .ok limit ∧ 1 ≤ limit ∧
      (∃ k w', w.run = .ok (k.stats, w') ∧ w.TickTrace .run k w') ∧
      ∀ k w', w.TickTrace .run k w' → k.stats.OfRuns w.torus.size limit ∧
        k.stats.halted = (List.range w.torus.size).countP k.halts) ∧
    ((∃ k w', w.step = .ok (k.stats, w') ∧ w.TickTrace .step k w') ∧
      ∀ k w', w.TickTrace .step k w' →
        k.stats = ⟨w.torus.size, (List.range w.torus.size).countP k.halts, 0⟩ ∧
          ∀ p < w.torus.size, ∃ e, k.own p = [e] ∧ w.bank.get p = .ok e.registers ∧
            w.machine.step p e.registers e.store = .ok e.result) ∧
    (w.tick = if w.config.exec.persist then w.step else w.run) ∧
    (∃ report : Nat → TickStats,
      (∀ i, (w.after i).tick = .ok (report i, w.after (i + 1))) ∧
      ∀ n, w.runTicks n = .ok (⟨((List.range n).map fun i => (report i).instructions).sum,
          ((List.range n).map fun i => (report i).halted).sum,
          ((List.range n).map fun i => (report i).exhausted).sum⟩, w.after n) ∧
        (w.after n).ticks = w.ticks + n) ∧
    ∀ m n, ∃ stats v more w', w.runTicks m = .ok (stats, v) ∧ v.runTicks n = .ok (more, w') ∧
      w.runTicks (m + n) = .ok (stats.merge more, w') := by
  have hsound := h.sound
  rw [← hsound.bank_size]
  obtain ⟨limit, hlimit⟩ := iterationLimit_ok hsound
  have hpos := one_le_iterationLimit hsound hlimit
  refine ⟨⟨limit, hlimit, hpos, ?_, fun k w' htick => ?_⟩, ⟨?_, fun k w' htick => ?_⟩, rfl, ?_,
    fun m n => ?_⟩
  · obtain ⟨k, w', hrun, -, htick⟩ := exists_tickTrace hsound .run
    exact ⟨k, w', hrun, htick⟩
  · exact ⟨htick.ofRuns hlimit hpos, htick.halted_eq⟩
  · obtain ⟨k, w', hstep, -, htick⟩ := exists_tickTrace hsound .step
    exact ⟨k, w', hstep, htick⟩
  · refine ⟨htick.step_stats, fun p hp => ?_⟩
    obtain ⟨r, hr⟩ := w.bank.get_ok hp
    obtain ⟨e, -, hown, rfl, hstep, -⟩ := htick.single hr
    exact ⟨e, hown, hr, hstep⟩
  · choose report hreport using fun i => tick_next (h.after i).sound
    refine ⟨report, hreport, fun n => ⟨?_, ticks_after hreport n⟩⟩
    rw [runTicks_eq_total hreport, TickStats.total_eq, List.map_map, List.map_map, List.map_map]
    rfl
  · obtain ⟨stats, hstats⟩ := runTicksFrom_after h m .zero
    obtain ⟨more, hmore⟩ := runTicksFrom_after (h.after m) n .zero
    refine ⟨stats, _, more, _, hstats, hmore, ?_⟩
    rw [runTicks_add, runTicks, hstats, ok_bind]
    dsimp only
    rw [runTicks, hmore]
    rfl

/-- Two programs that may execute two instructions in a tick.  The first one halts at a bracket
without a partner, the second one is stopped. -/
def unmatched : World where
  config := ⟨3, 2, 1, ⟨false, false, some 2⟩, none⟩
  torus := .couple
  store := .couple 93 0 0 0 0 0
  bank := ⟨3, #[.start, .start]⟩
  ticks := 0

theorem ticks_account_unmatched :
    (∃ (k : TickRecord) (w' : World), unmatched.run = .ok (k.stats, w') ∧
      k.stats = ⟨3, 1, 1⟩ ∧ k.stats.OfRuns 2 2) ∧
    (∃ (k : TickRecord) (w' : World), unmatched.step = .ok (k.stats, w') ∧
      k.stats = ⟨2, 1, 0⟩ ∧ (List.range 2).countP k.halts = 1) ∧
    ∃ stats v more w', unmatched.runTicks 2 = .ok (stats, v) ∧ v.runTicks 3 = .ok (more, w') ∧
      unmatched.runTicks 5 = .ok (stats.merge more, w') ∧ stats = ⟨6, 2, 2⟩ := by
  have hbytes : (#[93, 0, 0, 0, 0, 0] : Array UInt32).map UInt32.toUInt8 =
      #[93, 0, 0, 0, 0, 0] := by simp
  have hbuilt : ofBuffers unmatched.config #[93, 0, 0, 0, 0, 0] none = .ok unmatched := by
    simp only [ofBuffers, Store.ofCells, Store.writeCells, hbytes]
    rfl
  obtain ⟨⟨limit, hlimit, -, ⟨k, w', hrun, htrace⟩, hruns⟩,
    ⟨⟨k', w'', hstep, htrace'⟩, hsteps⟩, -, -, hportions⟩ := ticks_account (.ofBuffers hbuilt)
  obtain rfl : 2 = limit := Except.ok.inj hlimit
  refine ⟨⟨k, w', hrun, ?_, (hruns k w' htrace).1⟩, ⟨k', w'', hstep, ?_⟩, ?_⟩
  · have hstats : unmatched.run.map Prod.fst = .ok ⟨3, 1, 1⟩ := rfl
    rw [hrun] at hstats
    exact Except.ok.inj hstats
  · have hstats : unmatched.step.map Prod.fst = .ok ⟨2, 1, 0⟩ := rfl
    rw [hstep] at hstats
    have hstats : k'.stats = ⟨2, 1, 0⟩ := Except.ok.inj hstats
    have hcount := congrArg TickStats.halted (hsteps k' w'' htrace').1
    rw [hstats] at hcount
    exact ⟨hstats, hcount.symm⟩
  · obtain ⟨stats, v, more, w', hfirst, hsecond, hboth⟩ := hportions 2 3
    have hstats : (unmatched.runTicks 2).map Prod.fst = .ok ⟨6, 2, 2⟩ := rfl
    rw [hfirst] at hstats
    exact ⟨stats, v, more, w', hfirst, hsecond, hboth, Except.ok.inj hstats⟩

end World
end TapeTorus
