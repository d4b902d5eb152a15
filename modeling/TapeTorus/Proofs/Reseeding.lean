import TapeTorus.Proofs.Checkpoint

/-!
# Seeding erases history

Seeding replaces every tape and every register, and the drawn cells depend on nothing but
the sizes and the seed.  What is left of the past of a world is the count of its ticks,
which no operation reads, so worlds of one configuration cannot be told apart once they
are seeded alike.
-/

namespace TapeTorus

private theorem RegisterBank.reset_eq_zeroed (b : RegisterBank) :
    b.reset = zeroed b.size b.tapeLength := by
  unfold reset zeroed
  rw [Array.map_const']
  rfl

private theorem Store.snapshot_of_bytes {s : Store} {cells : Array UInt32}
    (hs : s.cells = cells.map UInt32.toUInt8) (hcells : Seeder.Bytes cells) :
    s.snapshot = cells := by
  rw [snapshot_of_cells hs]
  apply Array.ext
  · exact Array.size_map
  · intro i _ hi
    have hbyte : cells[i].toNat < 256 := hcells _ (Array.getElem_mem hi)
    rw [Array.getElem_map]
    apply UInt32.toNat_inj.1
    rw [UInt32.toNat_mod]
    exact Nat.mod_eq_of_lt hbyte

namespace World

/-- The world `w'` is `w` with the given cells on its tapes and all registers at zero. -/
structure SeededFrom (w' w : World) (cells : Array UInt32) : Prop where
  config_eq : w'.config = w.config
  torus_eq : w'.torus = w.torus
  sameShape : w'.store.SameShape w.store
  snapshot_eq : w'.store.snapshot = cells
  bank_eq : w'.bank = .zeroed w.store.programs w.store.tapeLength
  ticks_eq : w'.ticks = w.ticks

theorem seed_eq_ok {σ : Type} (G : Generator σ) {w : World} (h : w.Sound) (d : Seeder)
    (seed : UInt64) :
    ∃ cells w', d.fill G w.store.tapeLength w.store.programs seed = .ok cells ∧
      d.seed G w seed = .ok w' ∧ w'.SeededFrom w cells := by
  obtain ⟨cells, s, hfill, hwrite, hseed⟩ := seed_eq G w d seed
  have hbank : w.bank.reset = .zeroed w.store.programs w.store.tapeLength := by
    rw [RegisterBank.reset_eq_zeroed, h.bank_size, h.programs_eq, h.bank_tapeLength,
      h.tapeLength_eq]
  exact ⟨cells, _, hfill, hseed, {
    config_eq := rfl
    torus_eq := rfl
    sameShape := Store.sameShape_of_writeCells hwrite
    snapshot_eq :=
      Store.snapshot_of_bytes (Store.cells_of_writeCells hwrite) (Seeder.fill_bytes hfill)
    bank_eq := hbank
    ticks_eq := rfl }⟩

theorem Reachable.torus_eq {v w : World} (hv : v.Reachable) (hw : w.Reachable)
    (hconfig : v.config = w.config) : v.torus = w.torus := by
  apply Torus.eq_of_sides
  · rw [hv.onGrid.1, hconfig, hw.onGrid.1]
  · rw [hv.onGrid.2, hconfig, hw.onGrid.2]

private theorem Reachable.sameShape {v w : World} (hv : v.Reachable) (hw : w.Reachable)
    (hconfig : v.config = w.config) : v.store.SameShape w.store where
  tapeLength_eq := by rw [hv.sound.tapeLength_eq, hconfig, hw.sound.tapeLength_eq]
  programs_eq := by rw [hv.sound.programs_eq, hv.torus_eq hw hconfig, hw.sound.programs_eq]

/-- Worlds of one configuration that hold the same cells after a seeding differ in the
count of their ticks alone. -/
theorem SeededFrom.eq_aged {v w v' w' : World} {cells : Array UInt32} (hv : v.Reachable)
    (hw : w.Reachable) (hconfig : v.config = w.config) (hv' : v'.SeededFrom v cells)
    (hw' : w'.SeededFrom w cells) : v' = ({ w' with ticks := 0 } : World).aged v.ticks := by
  have hshape : v.store.SameShape w.store := hv.sameShape hw hconfig
  have hstore : v'.store = w'.store :=
    Store.eq_of_snapshot ((hv'.sameShape.trans hshape).trans hw'.sameShape.symm)
      (hv'.snapshot_eq.trans hw'.snapshot_eq.symm)
  have hbank : v'.bank = w'.bank := by
    rw [hv'.bank_eq, hw'.bank_eq, hshape.programs_eq, hshape.tapeLength_eq]
  have hconfig' : v'.config = w'.config := by
    rw [hv'.config_eq, hconfig, hw'.config_eq]
  have htorus' : v'.torus = w'.torus := by
    rw [hv'.torus_eq, hv.torus_eq hw hconfig, hw'.torus_eq]
  have hticks : v'.ticks = 0 + v.ticks := by
    rw [hv'.ticks_eq, Nat.zero_add]
  cases v'
  cases w'
  simp only at hstore hbank hconfig' htorus' hticks
  simp only [aged, hstore, hbank, hconfig', htorus', hticks]

/-- Two worlds that differ in the count of their ticks give the same replies for ever. -/
theorem performAll_agree {u x : World} {i j : Nat} {calls : List Call} {replies : List Reply}
    (h : (u.aged i).performAll calls = .ok (replies, x)) :
    ∃ y, (u.aged j).performAll calls = .ok (replies, y) ∧
      y.store = x.store ∧ y.bank = x.bank ∧ y.ticks + i = x.ticks + j := by
  rw [performAll_aged] at h
  cases hu : u.performAll calls with
  | error f =>
    rw [hu] at h
    cases h
  | ok z =>
    rw [hu] at h
    obtain ⟨rfl, rfl⟩ := Prod.mk.inj (Except.ok.inj h)
    refine ⟨z.2.aged j, by rw [performAll_aged, hu]; rfl, rfl, rfl, ?_⟩
    simp only [aged]
    omega

/-- Every seeder gives every reachable world the cells that it draws for the sizes of the
world, and puts all registers to zero.  It leaves the configuration and the count of ticks
alone.  Any other reachable world of the same configuration has the same tapes and
registers after it, and whatever is done to both from then on, the host gets the same
replies and finds the same tapes and registers; the counts of ticks keep their difference. -/
theorem seeding_erases_history {σ : Type} (G : Generator σ) {w : World} (h : w.Reachable)
    (d : Seeder) (seed : UInt64) :
    ∃ cells w', d.fill G w.store.tapeLength w.store.programs seed = .ok cells ∧
      d.seed G w seed = .ok w' ∧
      w'.store.snapshot = cells ∧
      w'.bank = .zeroed w.store.programs w.store.tapeLength ∧
      w'.config = w.config ∧ w'.ticks = w.ticks ∧
      ∀ v : World, v.Reachable → v.config = w.config →
        ∃ v', d.seed G v seed = .ok v' ∧ v'.store = w'.store ∧ v'.bank = w'.bank ∧
          ∀ calls, ∃ replies x y,
            w'.performAll calls = .ok (replies, x) ∧ v'.performAll calls = .ok (replies, y) ∧
            y.store = x.store ∧ y.bank = x.bank ∧ y.ticks + w.ticks = x.ticks + v.ticks := by
  obtain ⟨cells, w', hfill, hseed, hw'⟩ := seed_eq_ok G h.sound d seed
  refine ⟨cells, w', hfill, hseed, hw'.snapshot_eq, hw'.bank_eq, hw'.config_eq, hw'.ticks_eq, ?_⟩
  intro v hv hconfig
  obtain ⟨cells', v', hfill', hseed', hv'⟩ := seed_eq_ok G hv.sound d seed
  have hshape : v.store.SameShape w.store := hv.sameShape h hconfig
  rw [hshape.tapeLength_eq, hshape.programs_eq, hfill, Except.ok.injEq] at hfill'
  subst hfill'
  have hage : v' = ({ w' with ticks := 0 } : World).aged v.ticks :=
    SeededFrom.eq_aged hv h hconfig hv' hw'
  have hself : w' = ({ w' with ticks := 0 } : World).aged w.ticks :=
    SeededFrom.eq_aged h h rfl hw' hw'
  refine ⟨v', hseed', ?_, ?_, ?_⟩
  · rw [hage]
    rfl
  · rw [hage]
    rfl
  · intro calls
    have hperform : w.perform (.seed G d seed) = .ok (.done, w') := by
      rw [perform, hseed]
      rfl
    have hreachable : w'.Reachable := h.perform hperform
    obtain ⟨replies, x, hcalls, -⟩ := hreachable.performAll_ok calls
    have hcalls' := hcalls
    rw [hself] at hcalls'
    obtain ⟨y, hagree, hstore, hbank, hticks⟩ := performAll_agree hcalls'
    exact ⟨replies, x, y, hcalls, hage ▸ hagree, hstore, hbank, hticks⟩

/-- A world that has counted for two ticks and was told to move a program, and one that
was never used, are seeded alike. -/
theorem seeding_erases_history_counting :
    ∃ w v cells w' v', counting.performAll [.runTicks 2, .setRegisters 1 ⟨2, 1, 0⟩] =
        .ok ([.ticked ⟨4, 0, 0⟩, .done], w) ∧
      World.ofConfig counting.config = .ok v ∧ w.store ≠ v.store ∧ w.bank ≠ v.bank ∧
      Seeder.standard.fill xoshiro 3 2 7 = .ok cells ∧
      Seeder.standard.seed xoshiro w 7 = .ok w' ∧ Seeder.standard.seed xoshiro v 7 = .ok v' ∧
      w'.store.snapshot = cells ∧ v'.store = w'.store ∧ v'.bank = w'.bank ∧
      ∃ replies x y, w'.performAll [.run, .tick, .runTicks 5] = .ok (replies, x) ∧
        v'.performAll [.run, .tick, .runTicks 5] = .ok (replies, y) ∧ y.store = x.store := by
  have hbytes : (#[43, 46, 1, 43, 43, 0] : Array UInt32).map UInt32.toUInt8 =
      #[43, 46, 1, 43, 43, 0] := by simp
  have hbuilt : ofBuffers counting.config #[43, 46, 1, 43, 43, 0] none = .ok counting := by
    simp only [ofBuffers, Store.ofCells, Store.writeCells, hbytes]
    rfl
  have hused : counting.performAll [.runTicks 2, .setRegisters 1 ⟨2, 1, 0⟩] = .ok (_, _) := rfl
  have hfresh : World.ofConfig counting.config = .ok _ := rfl
  obtain ⟨replies, w, hcalls, hw⟩ :=
    (Reachable.ofBuffers hbuilt).performAll_ok [.runTicks 2, .setRegisters 1 ⟨2, 1, 0⟩]
  rw [hused] at hcalls
  obtain ⟨rfl, rfl⟩ := Prod.mk.inj (Except.ok.inj hcalls)
  obtain ⟨cells, w', hfill, hseed, hsnapshot, -, -, -, hothers⟩ :=
    seeding_erases_history xoshiro hw .standard 7
  obtain ⟨v', hseed', hstore, hbank, hlater⟩ := hothers _ (.ofConfig hfresh) rfl
  obtain ⟨replies, x, y, hx, hy, hsame, -⟩ := hlater [.run, .tick, .runTicks 5]
  refine ⟨_, _, cells, w', v', hused, hfresh, ?_, ?_, hfill, hseed, hseed', hsnapshot, hstore,
    hbank, replies, x, y, hx, hy, hsame⟩
  · intro h
    exact absurd (congrArg Store.cells h) (by decide)
  · intro h
    exact absurd (congrArg RegisterBank.triples h) (by decide)

end World
end TapeTorus
