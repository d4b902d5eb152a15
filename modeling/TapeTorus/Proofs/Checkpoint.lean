import TapeTorus.Proofs.Building

/-!
# Checkpoints

The flat tapes and registers of a reachable world are accepted as the buffers of a new
world.  The new world differs from the old one only in the count of its ticks, which no
operation reads, so the host gets the same replies from both for ever after.
-/

namespace TapeTorus
namespace World

variable {w w' : World} {reply : Reply} {call : Call}

/-! ## The grid of a reachable world -/

/-- The torus has the sides of the configuration. -/
def OnGrid (w : World) : Prop :=
  w.torus.width = w.config.width ∧ w.torus.height = w.config.height

private theorem onGrid_keptByTicks : KeptByTicks OnGrid := by
  refine .of_tickWith fun hw h => ?_
  obtain ⟨hconfig, htorus, -⟩ := tickWith_frame h
  rwa [OnGrid, hconfig, htorus]

private theorem setRegisters_onGrid {program : Nat} {r : Registers} (hw : w.OnGrid)
    (h : w.setRegisters program r = .ok w') : w'.OnGrid := by
  unfold setRegisters at h
  obtain ⟨bank, -, h⟩ := bind_eq_ok_iff.1 h
  obtain rfl := Except.ok.inj h
  exact hw

private theorem loadTape_onGrid {buffer : Array UInt32} (hw : w.OnGrid)
    (h : w.loadTape buffer = .ok w') : w'.OnGrid := by
  unfold loadTape at h
  obtain ⟨store, -, h⟩ := bind_eq_ok_iff.1 h
  obtain rfl := Except.ok.inj h
  exact hw

private theorem seed_onGrid {σ : Type} {G : Generator σ} {seeder : Seeder} {seed : UInt64}
    (hw : w.OnGrid) (h : seeder.seed G w seed = .ok w') : w'.OnGrid := by
  unfold Seeder.seed at h
  obtain ⟨cells, -, h⟩ := bind_eq_ok_iff.1 h
  obtain ⟨v, hload, h⟩ := bind_eq_ok_iff.1 h
  obtain rfl := Except.ok.inj h
  have hv : v.OnGrid := loadTape_onGrid hw hload
  exact hv

private theorem perform_onGrid (hw : w.OnGrid) (h : w.perform call = .ok (reply, w')) :
    w'.OnGrid := by
  have hticks := onGrid_keptByTicks
  cases call with
  | step => exact ticked_keeps (fun _ _ => hticks.step hw) h
  | run => exact ticked_keeps (fun _ _ => hticks.run hw) h
  | tick => exact ticked_keeps (fun _ _ => hticks.tick hw) h
  | runTicks count => exact ticked_keeps (fun _ _ => hticks.runTicksFrom hw) h
  | setRegisters program r => exact changed_keeps hw (fun _ => setRegisters_onGrid hw) h
  | loadTape buffer => exact changed_keeps hw (fun _ => loadTape_onGrid hw) h
  | resetRegisters =>
    obtain rfl := (Prod.mk.inj (Except.ok.inj h)).2
    exact hw
  | seed G seeder seed => exact changed_keeps hw (fun _ => seed_onGrid hw) h

theorem Reachable.onGrid (h : w.Reachable) : w.OnGrid := by
  induction h with
  | ofConfig h =>
    simp only [World.ofConfig, bind_eq_ok_iff, pure_eq_ok, Except.ok.injEq] at h
    obtain ⟨_, -, t, ht, s, -, b, -, rfl⟩ := h
    exact Torus.sides_of_ofSides ht
  | ofBuffers h =>
    simp only [World.ofBuffers, bind_eq_ok_iff, pure_eq_ok, Except.ok.injEq] at h
    obtain ⟨_, -, t, ht, expected, -, _, -, s, -, b, -, _, -, rfl⟩ := h
    exact Torus.sides_of_ofSides ht
  | perform _ hcall ih => exact perform_onGrid ih hcall
  | interleave _ _ _ ih => exact ih

/-! ## Restoring -/

theorem Sound.simulatable (h : w.Sound) : w.config.Simulatable :=
  Config.validate_eq_ok_iff_simulatable.1 h.valid

private theorem Sound.admits (h : w.Sound) :
    w.config.Admits w.store.snapshot (some w.bank.toFlat.toArray) := by
  have hprograms : w.store.programs = w.config.width * w.config.height :=
    h.programs_eq.trans h.torus_size
  refine ⟨h.simulatable, ?_, ?_, ?_⟩
  · rw [Store.size_snapshot, hprograms, h.tapeLength_eq]
  · rintro _ ⟨⟩
    rw [List.size_toArray, RegisterBank.size_toFlat, h.bank_size, h.torus_size]
  · rintro _ ⟨⟩ value hvalue
    have hwithin : ∀ r ∈ w.bank.triples.toList, r.Within w.config.tapeLength := by
      intro r hr
      obtain ⟨p, hp⟩ := List.mem_iff_getElem?.1 hr
      apply h.within p r
      rw [RegisterBank.get_eq_ok_iff, ← hp, Array.getElem?_toList]
    apply RegisterBank.lt_of_within_iff.2 hwithin
    rw [← RegisterBank.toFlat_eq]
    exact List.mem_toArray.1 hvalue

/-- The tapes and registers of a reachable world make the same world again, at tick 0. -/
theorem Reachable.restore (h : w.Reachable) :
    World.ofBuffers w.config w.store.snapshot (some w.bank.toFlat.toArray) =
      .ok { w with ticks := 0 } := by
  have hsound := h.sound
  have hprograms : w.store.programs = w.config.width * w.config.height :=
    hsound.programs_eq.trans hsound.torus_size
  have hcells : w.config.CellsExist := by
    rw [Config.CellsExist, ← hprograms, ← hsound.tapeLength_eq]
    exact w.store.fits
  have hregisters : some w.bank.toFlat.toArray = none → w.config.RegistersExist := by
    intro hnone
    cases hnone
  obtain ⟨w', hw', hbuilt⟩ := ofBuffers_eq_ok hsound.admits hcells hregisters
  have hsame : BuiltFrom { w with ticks := 0 } w.config (w.store.snapshot.map (· % 256))
      (registersOr (some w.bank.toFlat.toArray) (w.config.width * w.config.height)) := {
    config_eq := rfl
    width_eq := h.onGrid.1
    height_eq := h.onGrid.2
    tapeLength_eq := hsound.tapeLength_eq
    programs_eq := hprograms
    snapshot_eq := w.store.snapshot_mod.symm
    bank_tapeLength := hsound.bank_tapeLength
    registers_eq := rfl
    ticks_eq := rfl }
  rw [hw', hbuilt.unique hsame]

/-! ## Worlds that differ in their ticks -/

/-- The world after `k` more ticks that did nothing. -/
def aged (w : World) (k : Nat) : World := { w with ticks := w.ticks + k }

private theorem tickWith_aged (w : World) (k : Nat)
    (turn : Nat → Registers → Store → Except Fault Turn) :
    (w.aged k).tickWith turn = (w.tickWith turn).map (Prod.map id (·.aged k)) := by
  unfold tickWith
  rw [map_bind]
  apply bind_congr
  intro x
  have hticks : w.ticks + k + 1 = w.ticks + 1 + k := Nat.add_right_comm ..
  simp only [aged, hticks, pure_eq_ok, Except.map, Prod.map, id]

private theorem step_aged (w : World) (k : Nat) :
    (w.aged k).step = w.step.map (Prod.map id (·.aged k)) :=
  w.tickWith_aged k w.machine.stepTurn

private theorem run_aged (w : World) (k : Nat) :
    (w.aged k).run = w.run.map (Prod.map id (·.aged k)) := by
  unfold run
  rw [map_bind]
  apply bind_congr
  intro limit
  exact w.tickWith_aged k _

private theorem tick_aged (w : World) (k : Nat) :
    (w.aged k).tick = w.tick.map (Prod.map id (·.aged k)) := by
  have hmode : (w.aged k).config.exec.persist = w.config.exec.persist := rfl
  unfold tick
  rw [hmode]
  split
  · exact w.step_aged k
  · exact w.run_aged k

private theorem runTicksFrom_aged (n : Nat) (stats : TickStats) (w : World) (k : Nat) :
    runTicksFrom n stats (w.aged k) =
      (runTicksFrom n stats w).map (Prod.map id (·.aged k)) := by
  induction n generalizing stats w with
  | zero => rfl
  | succ n ih =>
    rw [runTicksFrom, runTicksFrom, tick_aged, map_bind]
    cases w.tick with
    | error f => rfl
    | ok x => exact ih _ _

private theorem ticked_aged (outcome : Except Fault (TickStats × World)) (k : Nat) :
    ticked (outcome.map (Prod.map id (·.aged k))) =
      (ticked outcome).map (Prod.map id (·.aged k)) := by
  cases outcome with
  | error f => rfl
  | ok x => rfl

private theorem setRegisters_aged (w : World) (k program : Nat) (r : Registers) :
    (w.aged k).setRegisters program r = (w.setRegisters program r).map (·.aged k) := by
  unfold setRegisters
  rw [map_bind]
  rfl

private theorem loadTape_aged (w : World) (k : Nat) (buffer : Array UInt32) :
    (w.aged k).loadTape buffer = (w.loadTape buffer).map (·.aged k) := by
  unfold loadTape
  rw [map_bind]
  rfl

private theorem seed_aged {σ : Type} (G : Generator σ) (w : World) (k : Nat) (seeder : Seeder)
    (seed : UInt64) : seeder.seed G (w.aged k) seed = (seeder.seed G w seed).map (·.aged k) := by
  unfold Seeder.seed
  rw [map_bind]
  apply bind_congr
  intro cells
  rw [loadTape_aged, map_bind]
  cases w.loadTape cells with
  | error e => rfl
  | ok v => rfl

private theorem changed_aged (w : World) (k : Nat) (outcome : Except Error World) :
    (w.aged k).changed (outcome.map (·.aged k)) =
      (w.changed outcome).map (Prod.map id (·.aged k)) := by
  match outcome with
  | .ok v => rfl
  | .error (.fault f) => rfl
  | .error (.config _) | .error (.file _) | .error (.image _) => rfl

/-- No operation reads the count of ticks. -/
theorem perform_aged (w : World) (k : Nat) (call : Call) :
    (w.aged k).perform call = (w.perform call).map (Prod.map id (·.aged k)) := by
  cases call with
  | step => rw [perform, perform, step_aged, ticked_aged]
  | run => rw [perform, perform, run_aged, ticked_aged]
  | tick => rw [perform, perform, tick_aged, ticked_aged]
  | runTicks count =>
    rw [perform, perform, runTicks, runTicks, runTicksFrom_aged, ticked_aged]
  | setRegisters program r => rw [perform, perform, setRegisters_aged, changed_aged]
  | loadTape buffer => rw [perform, perform, loadTape_aged, changed_aged]
  | resetRegisters => rfl
  | seed G seeder seed => rw [perform, perform, seed_aged, changed_aged]

theorem performAll_aged (w : World) (k : Nat) (calls : List Call) :
    (w.aged k).performAll calls = (w.performAll calls).map (Prod.map id (·.aged k)) := by
  induction calls generalizing w with
  | nil => rfl
  | cons call calls ih =>
    rw [performAll, performAll, perform_aged, map_bind]
    cases w.perform call with
    | error f => rfl
    | ok x =>
      have hrest := ih x.2
      dsimp only [Except.map, Prod.map, id, ok_bind] at hrest ⊢
      rw [hrest]
      cases x.2.performAll calls with
      | error f => rfl
      | ok y => rfl

/-- The flat tapes and registers of a reachable world are a checkpoint of it.  The world
that is built from them has the same tapes and registers, and whatever is done to both,
the host gets the same replies and finds the same tapes and registers; the counts of
ticks keep their difference. -/
theorem restored_agrees {w : World} (h : w.Reachable) :
    ∃ w', ofBuffers w.config w.store.snapshot (some w.bank.toFlat.toArray) = .ok w' ∧
      w'.store = w.store ∧ w'.bank = w.bank ∧ w'.ticks = 0 ∧
      ∀ calls, ∃ replies v v',
        w.performAll calls = .ok (replies, v) ∧ w'.performAll calls = .ok (replies, v') ∧
        v'.store = v.store ∧ v'.bank = v.bank ∧ v.ticks = v'.ticks + w.ticks := by
  have hrestore := h.restore
  have haged : ({ w with ticks := 0 } : World).aged w.ticks = w := by
    rw [aged, Nat.zero_add]
  refine ⟨{ w with ticks := 0 }, hrestore, rfl, rfl, rfl, fun calls => ?_⟩
  have hreachable : Reachable { w with ticks := 0 } := .ofBuffers hrestore
  obtain ⟨replies, v', hcalls, -⟩ := hreachable.performAll_ok calls
  refine ⟨replies, v'.aged w.ticks, v', ?_, hcalls, rfl, rfl, rfl⟩
  have hperform := performAll_aged { w with ticks := 0 } w.ticks calls
  rw [haged, hcalls] at hperform
  exact hperform

/-- Two programs that count up their first cells, the first of which copies its own to
the other. -/
def counting : World where
  config := ⟨3, 2, 1, .persistent, none⟩
  torus := .couple
  store := .couple 43 46 1 43 43 0
  bank := ⟨3, #[.start, .start]⟩
  ticks := 0

/-- A checkpoint after two ticks, and operations on both worlds one of which is refused. -/
theorem restored_agrees_counting :
    ∃ stats w, counting.runTicks 2 = .ok (stats, w) ∧ w.ticks = 2 ∧
      w.store.cells = #[44, 46, 1, 45, 43, 0] ∧ w.bank.toFlat = [2, 0, 0, 2, 0, 0] ∧
      ∃ w', ofBuffers w.config w.store.snapshot (some w.bank.toFlat.toArray) = .ok w' ∧
        w'.ticks = 0 ∧ ∃ replies v v',
          w.performAll [.tick, .setRegisters 2 .start, .runTicks 3] = .ok (replies, v) ∧
          w'.performAll [.tick, .setRegisters 2 .start, .runTicks 3] = .ok (replies, v') ∧
          v'.store = v.store ∧ v.ticks = v'.ticks + 2 := by
  have hbytes : (#[43, 46, 1, 43, 43, 0] : Array UInt32).map UInt32.toUInt8 =
      #[43, 46, 1, 43, 43, 0] := by simp
  have hbuilt : ofBuffers counting.config #[43, 46, 1, 43, 43, 0] none = .ok counting := by
    simp only [ofBuffers, Store.ofCells, Store.writeCells, hbytes]
    rfl
  have hticks : counting.runTicks 2 = .ok (_, _) := rfl
  have hperform : counting.perform (.runTicks 2) = .ok (_, _) := rfl
  have hreachable := (Reachable.ofBuffers hbuilt).perform hperform
  obtain ⟨w', hrestore, -, -, hzero, hcalls⟩ := restored_agrees hreachable
  obtain ⟨replies, v, v', hv, hv', hstore, -, hcount⟩ :=
    hcalls [.tick, .setRegisters 2 .start, .runTicks 3]
  exact ⟨_, _, hticks, rfl, rfl, rfl, w', hrestore, hzero, replies, v, v', hv, hv', hstore, hcount⟩

end World
end TapeTorus
