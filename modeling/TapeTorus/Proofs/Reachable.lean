import TapeTorus.Proofs.Interleaving
import TapeTorus.Proofs.Seeding
import TapeTorus.Proofs.Slots

/-!
# Reachable worlds

A world is reachable if host operations and ticks lead to it from a world that
was built, whatever the order was in which the programs of a tick took their
instructions.  Every reachable world is sound, no operation on it faults, and
none leads out of the sound worlds.
-/

namespace TapeTorus

inductive Call : Type 1 where
  | step
  | run
  | tick
  | runTicks (count : Nat)
  | setRegisters (program : Nat) (r : Registers)
  | loadTape (buffer : Array UInt32)
  | resetRegisters
  | seed {σ : Type} (G : Generator σ) (seeder : Seeder) (seed : UInt64)

/-- What the host is told. -/
inductive Reply where
  | done
  | ticked (stats : TickStats)
  | refused (cause : Error)
  deriving DecidableEq

namespace World

/-- The reply to a tick, and the world after it. -/
def ticked (outcome : Except Fault (TickStats × World)) : Except Fault (Reply × World) := do
  let (stats, w) ← outcome
  return (.ticked stats, w)

/-- The reply to an operation that may be refused, which leaves the world as it was. -/
def changed (w : World) : Except Error World → Except Fault (Reply × World)
  | .ok w' => return (.done, w')
  | .error (.fault cause) => .error cause
  | .error cause => return (.refused cause, w)

def perform (w : World) : Call → Except Fault (Reply × World)
  | .step => ticked w.step
  | .run => ticked w.run
  | .tick => ticked w.tick
  | .runTicks count => ticked (w.runTicks count)
  | .setRegisters program r => w.changed (w.setRegisters program r)
  | .loadTape buffer => w.changed (w.loadTape buffer)
  | .resetRegisters => return (.done, w.resetRegisters)
  | .seed G seeder seed => w.changed (seeder.seed G w seed)

def performAll (w : World) : List Call → Except Fault (List Reply × World)
  | [] => return ([], w)
  | call :: calls => do
    let (reply, w) ← w.perform call
    let (replies, w) ← w.performAll calls
    return (reply :: replies, w)

/-- The worlds that operations lead to, the instructions of a tick being taken in
any order. -/
inductive Reachable : World → Prop where
  | ofConfig {c : Config} {w : World} (h : World.ofConfig c = .ok w) : Reachable w
  | ofBuffers {c : Config} {tape : Array UInt32} {registers : Option (Array UInt32)} {w : World}
      (h : World.ofBuffers c tape registers = .ok w) : Reachable w
  | perform {w w' : World} {call : Call} {reply : Reply} (h : Reachable w)
      (hcall : w.perform call = .ok (reply, w')) : Reachable w'
  | interleave {w : World} {mode : Mode} {order : List Nat} {x : Race} (h : Reachable w)
      (hplay : w.interleave mode order = .ok x) (hsettled : w.Settled x) :
      Reachable (w.settle x)

end World

/-! ## Building a world -/

private theorem Store.sizes_of_zeroed {tapeLength programs : Nat} {s : Store}
    (h : zeroed tapeLength programs = .ok s) :
    s.tapeLength = tapeLength ∧ s.programs = programs := by
  unfold zeroed at h
  split at h
  · split at h
    · split at h
      · obtain rfl := Except.ok.inj h
        exact ⟨rfl, rfl⟩
      · cases h
    · cases h
  · cases h

theorem Store.sameShape_of_writeCells {s t : Store} {buffer : Array UInt32}
    (h : s.writeCells buffer = .ok t) : t.SameShape s := by
  unfold writeCells at h
  split at h
  · obtain rfl := Except.ok.inj h
    exact ⟨rfl, rfl⟩
  · cases h

private theorem Store.sizes_of_ofCells {tapeLength : Nat} {buffer : Array UInt32} {s : Store}
    (h : ofCells tapeLength buffer = .ok s) :
    s.tapeLength = tapeLength ∧ s.programs = buffer.size / tapeLength := by
  simp only [ofCells, bind_eq_ok_iff] at h
  obtain ⟨_, _, t, hzeroed, hwrite⟩ := h
  obtain ⟨hlength, hprograms⟩ := sizes_of_zeroed hzeroed
  have hshape := sameShape_of_writeCells hwrite
  exact ⟨hshape.tapeLength_eq.trans hlength, hshape.programs_eq.trans hprograms⟩

namespace RegisterBank

private theorem zeroed_within {programs tapeLength : Nat} (h : 0 < tapeLength) :
    (zeroed programs tapeLength).Within tapeLength := by
  intro p r hr
  obtain ⟨hp, rfl⟩ := Array.getElem?_eq_some_iff.1 (get_eq_ok_iff.1 hr)
  simpa [zeroed] using Registers.within_start h

theorem fresh_eq_error {programs tapeLength : Nat}
    (h : ¬programs * Registers.bytes ≤ Size.tableLimit) :
    Fault.lift (fresh programs tapeLength) = .error (.fault .capacity) := by
  rw [fresh, Size.table, if_neg h]
  rfl

theorem fresh_eq_ok_iff {programs tapeLength : Nat} {b : RegisterBank} :
    Fault.lift (fresh programs tapeLength) = .ok b ↔
      programs * Registers.bytes ≤ Size.tableLimit ∧ zeroed programs tapeLength = b := by
  by_cases h : programs * Registers.bytes ≤ Size.tableLimit
  · simp [fresh, Size.table_eq_ok h, h]
  · simp [fresh_eq_error h, h]

private theorem within_of_ofFlat {flat : Array UInt32} {tapeLength : Nat} {b : RegisterBank}
    (h : ofFlat flat tapeLength = .ok b) : b.tapeLength = tapeLength ∧ b.Within tapeLength := by
  simp only [ofFlat, bind_eq_ok_iff] at h
  obtain ⟨_, _, h⟩ := h
  split at h
  · cases h
  · rename_i hnone
    obtain rfl := Except.ok.inj h
    refine ⟨rfl, fun p r hr => ?_⟩
    have hmem := Array.mem_of_getElem? (get_eq_ok_iff.1 hr)
    simpa using Array.findIdx?_eq_none_iff.1 hnone r hmem

private theorem set_eq (b : RegisterBank) (program : Nat) (r : Registers) :
    b.set program r =
      if program < b.size then
        if r.Within b.tapeLength then .ok (b.put program r)
        else .error (.config (.registersExceed r b.tapeLength))
      else .error (.config (.unknownProgram program b.size)) := by
  unfold set
  by_cases hp : program < b.size
  · rw [Error.require_eq_ok hp, ok_bind, if_pos hp]
    by_cases hr : r.Within b.tapeLength
    · rw [Error.require_eq_ok hr, if_pos hr]
      rfl
    · rw [Error.require_eq_error hr, if_neg hr]
      rfl
  · rw [Error.require_eq_error hp, if_neg hp]
    rfl

@[simp] theorem size_reset (b : RegisterBank) : b.reset.size = b.size := Array.size_map

private theorem reset_within {b : RegisterBank} {length : Nat} (h : 0 < length) :
    b.reset.Within length := by
  intro p r hr
  obtain ⟨hp, rfl⟩ := Array.getElem?_eq_some_iff.1 (get_eq_ok_iff.1 hr)
  simpa [reset] using Registers.within_start h

end RegisterBank

namespace World

private theorem sound_of_ofConfig {c : Config} {w : World} (h : ofConfig c = .ok w) : w.Sound := by
  simp only [ofConfig, bind_eq_ok_iff, pure_eq_ok, Except.ok.injEq] at h
  obtain ⟨_, hvalid, t, ht, s, hs, b, hb, rfl⟩ := h
  obtain ⟨hwidth, hheight⟩ := Torus.sides_of_ofSides ht
  obtain ⟨hlength, hprograms⟩ := Store.sizes_of_zeroed hs
  obtain ⟨-, rfl⟩ := RegisterBank.fresh_eq_ok_iff.1 hb
  have hpos := ((Config.validate_eq_ok_iff c).1 hvalid).1.1
  exact {
    valid := hvalid
    torus_size := by rw [Torus.size, hwidth, hheight]
    programs_eq := hprograms
    bank_size := Array.size_replicate
    tapeLength_eq := hlength
    bank_tapeLength := rfl
    within := RegisterBank.zeroed_within hpos }

private theorem sound_of_ofBuffers {c : Config} {tape : Array UInt32}
    {registers : Option (Array UInt32)} {w : World} (h : ofBuffers c tape registers = .ok w) :
    w.Sound := by
  simp only [ofBuffers, bind_eq_ok_iff, pure_eq_ok, Except.ok.injEq] at h
  obtain ⟨_, hvalid, t, ht, expected, hexpected, _, htape, s, hs, b, hb, _, hsize, rfl⟩ := h
  obtain ⟨hwidth, hheight⟩ := Torus.sides_of_ofSides ht
  obtain ⟨hlength, hprograms⟩ := Store.sizes_of_ofCells hs
  have hpos := ((Config.validate_eq_ok_iff c).1 hvalid).1.1
  have hbank : b.tapeLength = c.tapeLength ∧ b.Within c.tapeLength := by
    cases registers with
    | none =>
      obtain ⟨-, rfl⟩ := RegisterBank.fresh_eq_ok_iff.1 hb
      exact ⟨rfl, RegisterBank.zeroed_within hpos⟩
    | some flat => exact RegisterBank.within_of_ofFlat hb
  have hcells : tape.size = t.size * c.tapeLength := by
    rw [Error.require_eq_ok_iff.1 htape]
    cases hmul : Size.mul t.size c.tapeLength with
    | error f => simp [hmul] at hexpected
    | ok n =>
      rw [hmul, Fault.lift_ok, Except.ok.injEq] at hexpected
      exact hexpected ▸ (Size.mul_eq_ok_iff.1 hmul).2.symm
  exact {
    valid := hvalid
    torus_size := by rw [Torus.size, hwidth, hheight]
    programs_eq := by rw [hprograms, hcells, Nat.mul_div_cancel _ hpos]
    bank_size := Error.require_eq_ok_iff.1 hsize
    tapeLength_eq := hlength
    bank_tapeLength := hbank.1
    within := hbank.2 }

/-! ## What operations keep -/

/-- The property of worlds outlasts ticks of both kinds. -/
structure KeptByTicks (P : World → Prop) : Prop where
  step : ∀ {w w' : World} {stats : TickStats}, P w → w.step = .ok (stats, w') → P w'
  run : ∀ {w w' : World} {stats : TickStats}, P w → w.run = .ok (stats, w') → P w'

namespace KeptByTicks

variable {P : World → Prop} {w w' : World} {stats stats' : TickStats}

theorem of_tickWith (h : ∀ {turn w w' stats}, P w → w.tickWith turn = .ok (stats, w') → P w') :
    KeptByTicks P where
  step hw hstep := h hw hstep
  run hw hrun := by
    obtain ⟨turn, htick⟩ := exists_turn_of_run hrun
    exact h hw htick

theorem tick (hP : KeptByTicks P) (hw : P w) (h : w.tick = .ok (stats, w')) : P w' := by
  unfold World.tick at h
  split at h
  · exact hP.step hw h
  · exact hP.run hw h

theorem runTicksFrom (hP : KeptByTicks P) {n : Nat} (hw : P w)
    (h : World.runTicksFrom n stats w = .ok (stats', w')) : P w' := by
  induction n generalizing w stats with
  | zero =>
    obtain rfl := (Prod.mk.inj (Except.ok.inj h)).2
    exact hw
  | succ n ih =>
    unfold World.runTicksFrom at h
    obtain ⟨⟨more, v⟩, htick, hrest⟩ := bind_eq_ok_iff.1 h
    exact ih (hP.tick hw htick) hrest

end KeptByTicks

theorem ticked_keeps {P : World → Prop} {w' : World} {reply : Reply}
    {outcome : Except Fault (TickStats × World)}
    (hP : ∀ stats v, outcome = .ok (stats, v) → P v)
    (h : ticked outcome = .ok (reply, w')) : P w' := by
  unfold ticked at h
  obtain ⟨⟨stats, v⟩, houtcome, h⟩ := bind_eq_ok_iff.1 h
  obtain rfl := (Prod.mk.inj (Except.ok.inj h)).2
  exact hP stats v houtcome

/-- What the operation keeps is kept even if the operation is refused. -/
theorem changed_keeps {P : World → Prop} {w w' : World} {reply : Reply}
    {outcome : Except Error World} (hw : P w) (hP : ∀ v, outcome = .ok v → P v)
    (h : w.changed outcome = .ok (reply, w')) : P w' := by
  unfold changed at h
  split at h
  · rename_i v
    obtain rfl := (Prod.mk.inj (Except.ok.inj h)).2
    exact hP v rfl
  · cases h
  · obtain rfl := (Prod.mk.inj (Except.ok.inj h)).2
    exact hw

/-! ## Operations on a sound world -/

private theorem setRegisters_sound {w w' : World} {program : Nat} {r : Registers} (h : w.Sound)
    (hset : w.setRegisters program r = .ok w') : w'.Sound := by
  simp only [setRegisters, RegisterBank.set_eq] at hset
  split at hset
  · split at hset
    · rename_i hr
      obtain rfl := Except.ok.inj hset
      exact { h with
        bank_size := (RegisterBank.size_put ..).trans h.bank_size
        within := h.within.put (h.bank_tapeLength ▸ hr) }
    · cases hset
  · cases hset

private theorem loadTape_sound {w w' : World} {buffer : Array UInt32} (h : w.Sound)
    (hload : w.loadTape buffer = .ok w') : w'.Sound := by
  simp only [loadTape, bind_eq_ok_iff, pure_eq_ok, Except.ok.injEq] at hload
  obtain ⟨s, hwrite, rfl⟩ := hload
  have hshape := Store.sameShape_of_writeCells hwrite
  exact { h with
    programs_eq := hshape.programs_eq.trans h.programs_eq
    tapeLength_eq := hshape.tapeLength_eq.trans h.tapeLength_eq }

private theorem resetRegisters_sound {w : World} (h : w.Sound) : w.resetRegisters.Sound :=
  { h with
    bank_size := (RegisterBank.size_reset _).trans h.bank_size
    within := RegisterBank.reset_within (h.tapeLength_eq ▸ w.store.tapeLength_pos) }

/-- Seeding is neither refused nor does it fault: it loads the drawn cells and resets the
registers. -/
theorem seed_eq {σ : Type} (G : Generator σ) (w : World) (d : Seeder) (seed : UInt64) :
    ∃ cells s, d.fill G w.store.tapeLength w.store.programs seed = .ok cells ∧
      w.store.writeCells cells = .ok s ∧
      d.seed G w seed = .ok ({ w with store := s } : World).resetRegisters := by
  obtain ⟨cells, hfill, hsize⟩ := d.fill_ok G w.store seed
  have hwrite : ∃ s, w.store.writeCells cells = .ok s := ⟨_, dif_pos hsize⟩
  obtain ⟨s, hs⟩ := hwrite
  refine ⟨cells, s, hfill, hs, ?_⟩
  rw [Seeder.seed, hfill, Fault.lift_ok, ok_bind, loadTape, hs]
  rfl

private theorem seed_ok {σ : Type} (G : Generator σ) {w : World} (h : w.Sound) (d : Seeder)
    (seed : UInt64) : ∃ w', d.seed G w seed = .ok w' ∧ w'.Sound := by
  obtain ⟨cells, s, -, hs, hseed⟩ := seed_eq G w d seed
  have hload : w.loadTape cells = .ok { w with store := s } := by
    rw [loadTape, hs]
    rfl
  exact ⟨_, hseed, resetRegisters_sound (loadTape_sound h hload)⟩

private theorem changed_ok {w : World} (h : w.Sound) {outcome : Except Error World}
    (hok : ∀ w', outcome = .ok w' → w'.Sound) (hfault : ∀ f, outcome ≠ .error (.fault f)) :
    ∃ reply w', w.changed outcome = .ok (reply, w') ∧ w'.Sound := by
  match outcome with
  | .ok w' => exact ⟨_, w', rfl, hok w' rfl⟩
  | .error (.fault f) => exact absurd rfl (hfault f)
  | .error (.config _) | .error (.file _) | .error (.image _) => exact ⟨_, w, rfl, h⟩

private theorem ticked_ok {outcome : Except Fault (TickStats × World)}
    (h : ∃ stats w', outcome = .ok (stats, w') ∧ w'.Sound) :
    ∃ reply w', ticked outcome = .ok (reply, w') ∧ w'.Sound := by
  obtain ⟨stats, w', rfl, hw'⟩ := h
  exact ⟨_, w', rfl, hw'⟩

theorem perform_ok {w : World} (h : w.Sound) (call : Call) :
    ∃ reply w', w.perform call = .ok (reply, w') ∧ w'.Sound := by
  cases call with
  | step => exact ticked_ok (step_ok h)
  | run => exact ticked_ok (run_ok h)
  | tick => exact ticked_ok (tick_ok h)
  | runTicks count => exact ticked_ok (runTicksFrom_ok h count .zero)
  | setRegisters program r =>
    refine changed_ok h (fun w' => setRegisters_sound h) fun f hf => ?_
    simp only [setRegisters, RegisterBank.set_eq] at hf
    split at hf
    · split at hf <;> cases hf
    · cases hf
  | loadTape buffer =>
    refine changed_ok h (fun w' => loadTape_sound h) fun f hf => ?_
    simp only [loadTape, Store.writeCells] at hf
    split at hf <;> cases hf
  | resetRegisters => exact ⟨_, _, rfl, resetRegisters_sound h⟩
  | seed G d seed =>
    obtain ⟨w', hseed, hw'⟩ := seed_ok G h d seed
    exact ⟨.done, w', by rw [perform, hseed]; rfl, hw'⟩

theorem Sound.perform {w w' : World} {call : Call} {reply : Reply} (h : w.Sound)
    (hcall : w.perform call = .ok (reply, w')) : w'.Sound := by
  obtain ⟨reply', w'', hcall', hsound⟩ := perform_ok h call
  rw [hcall, Except.ok.injEq, Prod.mk.injEq] at hcall'
  exact hcall'.2 ▸ hsound

theorem Sound.settle {w : World} {mode : Mode} {order : List Nat} {x : Race} (h : w.Sound)
    (hplay : w.interleave mode order = .ok x) : (w.settle x).Sound := by
  obtain ⟨x', hplay', hrange⟩ := interleave_ok h mode order
  rw [hplay, Except.ok.injEq] at hplay'
  exact settle_sound h (hplay' ▸ hrange)

theorem Reachable.sound {w : World} (h : w.Reachable) : w.Sound := by
  induction h with
  | ofConfig h => exact sound_of_ofConfig h
  | ofBuffers h => exact sound_of_ofBuffers h
  | perform _ hcall ih => exact ih.perform hcall
  | interleave _ hplay _ ih => exact ih.settle hplay

theorem Reachable.performAll_ok {w : World} (h : w.Reachable) (calls : List Call) :
    ∃ replies w', w.performAll calls = .ok (replies, w') ∧ w'.Reachable := by
  induction calls generalizing w with
  | nil => exact ⟨[], w, rfl, h⟩
  | cons call calls ih =>
    obtain ⟨reply, w₁, hcall, -⟩ := perform_ok h.sound call
    obtain ⟨replies, w₂, hcalls, hw₂⟩ := ih (h.perform hcall)
    refine ⟨reply :: replies, w₂, ?_, hw₂⟩
    simp only [performAll, hcall, hcalls, ok_bind]
    rfl

/-- In every reachable world the sizes agree, cells hold bytes and registers name
cells of their own tape.  Slots of 32 bits answer as the cells do: they hold bytes once a
buffer has been written to them, whatever they held before, and every write keeps this.
No sequence of operations faults, and neither do the instructions of a tick in whatever
order they are taken. -/
theorem reachable_in_range {w : World} (h : w.Reachable) :
    (w.bank.size = w.torus.size ∧ w.store.programs = w.torus.size ∧
      w.torus.size = w.config.width * w.config.height) ∧
    (w.store.tapeLength = w.config.tapeLength ∧ w.bank.tapeLength = w.config.tapeLength) ∧
    (∀ slot ∈ w.store.snapshot, slot.toNat < 256) ∧
    (w.store.slots.Holds w.store ∧ w.store.slots.Bytes ∧
      (∀ (x x' : Slots) buffer, x.writeCells buffer = .ok x' → x'.Bytes) ∧
      ∀ (x x' : Slots) program offset value, x.Bytes →
        x.write program offset value = .ok x' → x'.Bytes) ∧
    (∀ program r, w.bank.get program = .ok r →
      r.ip.toNat < w.config.tapeLength ∧ r.head0.toNat < w.config.tapeLength ∧
        r.head1.toNat < w.config.tapeLength) ∧
    (∀ calls, ∃ replies w', w.performAll calls = .ok (replies, w') ∧ w'.Reachable) ∧
    (∀ mode order, ∃ x, w.interleave mode order = .ok x ∧
      ∀ program, (x.threads program).registers.Within w.config.tapeLength) := by
  have hsound := h.sound
  refine ⟨⟨hsound.bank_size, hsound.programs_eq, hsound.torus_size⟩,
    ⟨hsound.tapeLength_eq, hsound.bank_tapeLength⟩, w.store.bytes_slots,
    ⟨w.store.holds_slots, w.store.bytes_slots, ?_, ?_⟩, hsound.within, h.performAll_ok, ?_⟩
  · intro x x' buffer hwritten
    exact Slots.writeCells_bytes hwritten
  · intro x x' program offset value hx hwritten
    exact hx.write hwritten
  · intro mode order
    obtain ⟨x, hplay, hrange⟩ := interleave_ok hsound mode order
    exact ⟨x, hplay, hsound.tapeLength_eq ▸ hrange.within⟩

/-- Two programs that loop and copy, through ticks of both kinds, a refused change
of registers and a seeding. -/
theorem reachable_in_range_pair :
    ∃ w, ofConfig ⟨3, 2, 1, .runToCompletion, none⟩ = .ok w ∧
      w.bank.size = w.torus.size ∧ w.torus.size = 2 ∧
      (∃ replies w', w.performAll [.loadTape #[91, 46, 93, 44, 0, 263], .step,
          .setRegisters 1 ⟨3, 0, 0⟩, .run, .seed xoshiro .standard 5, .runTicks 4] =
        .ok (replies, w') ∧ w'.Reachable) ∧
      ∃ x, w.interleave .run [1, 0, 0, 1, 1, 7] = .ok x ∧
        ∀ program, (x.threads program).registers.Within 3 := by
  have hbuilt : ofConfig ⟨3, 2, 1, .runToCompletion, none⟩ = .ok _ := rfl
  refine ⟨_, hbuilt, ?_⟩
  obtain ⟨⟨hbank, -, htorus⟩, -, -, -, -, hcalls, horders⟩ := reachable_in_range (.ofConfig hbuilt)
  exact ⟨hbank, htorus, hcalls _, horders _ _⟩

end World
end TapeTorus
