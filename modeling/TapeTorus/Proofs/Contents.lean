import TapeTorus.Proofs.OrderIndependence
import TapeTorus.Proofs.Writes

/-!
# What tapes can come to hold

Only the two counting instructions make new bytes.  The copy instructions spread
bytes that are there already, and all others write nothing.  A store without
counting instructions therefore never gets one, and keeps to the bytes that it
began with, however its programs rewrite each other and in whatever order they
act; without copy instructions it does not change at all.
-/

namespace TapeTorus

/-! ## What every step keeps -/

/-- No step of any program on any torus takes the property away from the store. -/
def Kept (I : Store → Prop) : Prop :=
  ∀ (m : Machine) (program : Nat) (r : Registers) (s : Store) (x : Stepped),
    I s → m.step program r s = .ok x → I x.store

namespace Kept

variable {I : Store → Prop} {m : Machine}

theorem stepTurn (hI : Kept I) {program : Nat} {r : Registers} {s : Store} {t : Turn}
    (hs : I s) (h : m.stepTurn program r s = .ok t) : I t.store := by
  rw [Machine.stepTurn, bind_eq_ok_iff] at h
  obtain ⟨x, hstep, h⟩ := h
  obtain rfl := Except.ok.inj h
  exact hI m program r s x hs hstep

theorem runFrom (hI : Kept I) {program budget done : Nat} {r : Registers} {s : Store}
    {t : Turn} (hs : I s) (h : m.runFrom program budget done r s = .ok t) : I t.store := by
  induction budget generalizing done r s with
  | zero =>
    obtain rfl := Except.ok.inj h
    exact hs
  | succ budget ih =>
    rw [Machine.runFrom, bind_eq_ok_iff] at h
    obtain ⟨⟨outcome, r', s'⟩, hstep, h⟩ := h
    have hs' : I s' := hI m program r s _ hs hstep
    cases outcome with
    | halted =>
      obtain rfl := Except.ok.inj h
      exact hs'
    | running => exact ih hs' h

theorem turn (hI : Kept I) {mode : Mode} {budget program : Nat} {r : Registers} {s : Store}
    {t : Turn} (hs : I s) (h : mode.turn m budget program r s = .ok t) : I t.store := by
  cases mode with
  | step => exact hI.stepTurn hs h
  | run => exact hI.runFrom hs h

theorem visitAll (hI : Kept I) {mode : Mode} {budget : Nat} {order : List Nat} {x y : Sweep}
    (hx : I x.store) (h : Sweep.visitAll (mode.turn m budget) order x = .ok y) : I y.store := by
  induction order generalizing x with
  | nil =>
    obtain rfl := Except.ok.inj h
    exact hx
  | cons p order ih =>
    rw [Sweep.visitAll, List.foldlM_cons, bind_eq_ok_iff] at h
    obtain ⟨x', hvisit, h⟩ := h
    apply ih _ h
    rw [Sweep.visit, bind_eq_ok_iff] at hvisit
    obtain ⟨r, -, hvisit⟩ := hvisit
    rw [bind_eq_ok_iff] at hvisit
    obtain ⟨t, hturn, hvisit⟩ := hvisit
    obtain rfl := Except.ok.inj hvisit
    exact hI.turn hx hturn

theorem play (hI : Kept I) {order : List Nat} {x y : Race} (hx : I x.store)
    (h : x.play m order = .ok y) : I y.store := by
  induction order generalizing x with
  | nil =>
    obtain rfl := Except.ok.inj h
    exact hx
  | cons p order ih =>
    rw [Race.play, List.foldlM_cons, bind_eq_ok_iff] at h
    obtain ⟨x', hadvance, h⟩ := h
    apply ih _ h
    rw [Race.advance, bind_eq_ok_iff] at hadvance
    obtain ⟨⟨t, s⟩, hstep, hadvance⟩ := hadvance
    obtain rfl := Except.ok.inj hadvance
    rw [Machine.advance] at hstep
    split at hstep
    · simp only [pure_eq_ok, Except.ok.injEq, Prod.mk.injEq] at hstep
      exact hstep.2 ▸ hx
    · rw [bind_eq_ok_iff] at hstep
      obtain ⟨z, hz, hstep⟩ := hstep
      simp only [pure_eq_ok, Except.ok.injEq, Prod.mk.injEq] at hstep
      exact hstep.2 ▸ hI m p _ _ z hx hz

end Kept

/-! ## Ticks in any order, and what comes between them -/

/-- The call leaves it to the programs to change their tapes. -/
def Call.LeavesTapes : Call → Prop
  | .loadTape _ | .seed .. => False
  | _ => True

namespace World

/-- One tick in the given mode in which the programs of the list have their turns, in
the order of the list. -/
def tickOver (w : World) (mode : Mode) (order : List Nat) :
    Except Fault (TickStats × World) := do
  let budget ← w.budget mode
  let ⟨stats, bank, store⟩ ←
    Sweep.visitAll (mode.turn w.machine budget) order ⟨.zero, w.bank, w.store⟩
  return (stats, { w with bank := bank, store := store, ticks := w.ticks + 1 })

/-- The worlds that ticks lead to, with changes of registers in between.  In a tick the
programs have their turns in the order of the torus, in any other order, or an
instruction at a time in any order. -/
inductive Later (w : World) : World → Prop where
  | refl : Later w w
  | perform {v v' : World} {call : Call} {reply : Reply} (h : Later w v)
      (hcall : call.LeavesTapes) (hperform : v.perform call = .ok (reply, v')) : Later w v'
  | tickOver {v v' : World} {mode : Mode} {order : List Nat} {stats : TickStats}
      (h : Later w v) (horder : ∀ p ∈ order, p < v.bank.size)
      (htick : v.tickOver mode order = .ok (stats, v')) : Later w v'
  | interleave {v : World} {mode : Mode} {order : List Nat} {x : Race} (h : Later w v)
      (hplay : v.interleave mode order = .ok x) (hsettled : v.Settled x) : Later w (v.settle x)

variable {w w' : World} {I : Store → Prop}

private theorem tickOver_range (w : World) (mode : Mode) :
    w.tickOver mode (List.range w.bank.size) = w.tickIn mode := by
  cases mode with
  | step => rfl
  | run =>
    rw [tickOver, tickIn, run, budget]
    cases w.config.exec.iterationLimit w.config.tapeLength with
    | error fault => rfl
    | ok limit => rfl

private theorem tickOver_ok (h : w.Sound) (mode : Mode) {order : List Nat}
    (horder : ∀ p ∈ order, p < w.bank.size) :
    ∃ stats w', w.tickOver mode order = .ok (stats, w') ∧ w'.Sound := by
  obtain ⟨budget, hbudget⟩ := budget_ok h mode
  have hprograms : w.store.programs = w.bank.size := h.programs_eq.trans h.bank_size.symm
  obtain ⟨x, hx, hrange⟩ := Sweep.visitAll_ok (turn_inRange h mode budget) (h.inRange .zero)
    fun p hp => hprograms ▸ horder p hp
  refine ⟨x.stats, _, ?_, h.of_inRange hrange (w.ticks + 1)⟩
  rw [tickOver, hbudget, ok_bind, hx]
  rfl

private theorem tickOver_kept (hI : Kept I) {mode : Mode} {order : List Nat} {stats : TickStats}
    (hw : I w.store) (h : w.tickOver mode order = .ok (stats, w')) : I w'.store := by
  rw [tickOver, bind_eq_ok_iff] at h
  obtain ⟨budget, -, h⟩ := h
  rw [bind_eq_ok_iff] at h
  obtain ⟨x, hx, h⟩ := h
  simp only [pure_eq_ok, Except.ok.injEq, Prod.mk.injEq] at h
  obtain ⟨-, rfl⟩ := h
  have hstart : I (Sweep.mk .zero w.bank w.store).store := hw
  exact hI.visitAll hstart hx

private theorem tickIn_kept (hI : Kept I) (mode : Mode) {stats : TickStats} (hw : I w.store)
    (h : w.tickIn mode = .ok (stats, w')) : I w'.store := by
  rw [← tickOver_range] at h
  exact tickOver_kept hI hw h

private theorem keptByTicks_of_kept (hI : Kept I) : KeptByTicks fun w => I w.store where
  step hw h := tickIn_kept hI .step hw h
  run hw h := tickIn_kept hI .run hw h

private theorem store_of_setRegisters {program : Nat} {r : Registers}
    (h : w.setRegisters program r = .ok w') : w'.store = w.store := by
  unfold setRegisters at h
  obtain ⟨bank, -, h⟩ := bind_eq_ok_iff.1 h
  obtain rfl := Except.ok.inj h
  rfl

private theorem perform_kept (hI : Kept I) {call : Call} {reply : Reply} (hcall : call.LeavesTapes)
    (hw : I w.store) (h : w.perform call = .ok (reply, w')) : I w'.store := by
  have hticks := keptByTicks_of_kept hI
  cases call with
  | step => exact ticked_keeps (fun _ _ => hticks.step hw) h
  | run => exact ticked_keeps (fun _ _ => hticks.run hw) h
  | tick => exact ticked_keeps (fun _ _ => hticks.tick hw) h
  | runTicks count => exact ticked_keeps (fun _ _ => hticks.runTicksFrom hw) h
  | setRegisters program r =>
    have hset : ∀ v, w.setRegisters program r = .ok v → I v.store := by
      intro v hv
      rw [store_of_setRegisters hv]
      exact hw
    exact changed_keeps (P := fun v => I v.store) hw hset h
  | resetRegisters =>
    obtain rfl := (Prod.mk.inj (Except.ok.inj h)).2
    exact hw
  | loadTape buffer => cases hcall
  | seed seeder seed => cases hcall

private theorem interleave_kept (hI : Kept I) {mode : Mode} {order : List Nat} {x : Race}
    (hw : I w.store) (h : w.interleave mode order = .ok x) : I x.store := by
  rw [interleave, bind_eq_ok_iff] at h
  obtain ⟨budget, -, h⟩ := h
  have hstart : I (w.race mode budget).store := hw
  exact hI.play hstart h

theorem Later.kept (hI : Kept I) (hw : I w.store) (h : w.Later w') : I w'.store := by
  induction h with
  | refl => exact hw
  | perform _ hcall hperform ih => exact perform_kept hI hcall ih hperform
  | tickOver _ _ htick ih => exact tickOver_kept hI ih htick
  | interleave _ hplay _ ih => exact interleave_kept hI ih hplay

theorem Later.sound (hw : w.Sound) (h : w.Later w') : w'.Sound := by
  induction h with
  | refl => exact hw
  | perform _ _ hperform ih => exact ih.perform hperform
  | @tickOver v v' mode order stats _ horder htick ih =>
    obtain ⟨stats', v'', htick', hsound⟩ := tickOver_ok ih mode horder
    rw [htick, Except.ok.injEq, Prod.mk.injEq] at htick'
    exact htick'.2 ▸ hsound
  | interleave _ hplay _ ih => exact ih.settle hplay

end World

/-! ## Stores without counting instructions -/

namespace Store

/-- All bytes of `s` are bytes of `s₀`, and `s` is `s₀` if that one holds no copy
instruction. -/
structure Confines (s₀ s : Store) : Prop where
  bytes : ∀ b ∈ s.cells, b ∈ s₀.cells
  same : Instruction.push.toByte ∉ s₀.cells → Instruction.pull.toByte ∉ s₀.cells → s = s₀

private theorem confines_kept {s₀ : Store} (hincrement : Instruction.increment.toByte ∉ s₀.cells)
    (hdecrement : Instruction.decrement.toByte ∉ s₀.cells) : Kept s₀.Confines := by
  intro m program r s x hs hstep
  obtain hsame | ⟨j, q, o, value, hj, hwrite, hcounts | ⟨hcopies, hvalue⟩⟩ :=
    Machine.step_written hstep
  · exact hsame.symm ▸ hs
  · -- An instruction that counts would be a byte of `s₀`.
    have hmem := hs.bytes _ hj
    obtain rfl | rfl := hcounts
    · exact absurd hmem hincrement
    · exact absurd hmem hdecrement
  · have hmem := hs.bytes _ hj
    constructor
    · intro b hb
      obtain rfl | hold := mem_of_write hwrite hb
      · exact hs.bytes _ hvalue
      · exact hs.bytes _ hold
    · intro hpush hpull
      obtain rfl | rfl := hcopies
      · exact absurd hmem hpush
      · exact absurd hmem hpull

end Store

namespace World

/-- Let no cell of a reachable world hold a counting instruction.  Then every later
world holds only bytes that the world held, so that none of them counts, and the
tapes never change at all if no cell held a copy instruction.  The same is true
between any two instructions of a tick, and no tick fails in any order. -/
theorem bytes_of_later {w w' : World} (h : w.Reachable)
    (hincrement : Instruction.increment.toByte ∉ w.store.cells)
    (hdecrement : Instruction.decrement.toByte ∉ w.store.cells) (hlater : w.Later w') :
    ((∀ b ∈ w'.store.cells, b ∈ w.store.cells) ∧
      Instruction.increment.toByte ∉ w'.store.cells ∧
      Instruction.decrement.toByte ∉ w'.store.cells) ∧
    (Instruction.push.toByte ∉ w.store.cells → Instruction.pull.toByte ∉ w.store.cells →
      w'.store = w.store) ∧
    (∀ mode order, ∃ x, w'.interleave mode order = .ok x ∧
      (∀ b ∈ x.store.cells, b ∈ w.store.cells) ∧
      (Instruction.push.toByte ∉ w.store.cells → Instruction.pull.toByte ∉ w.store.cells →
        x.store = w.store)) ∧
    (∀ mode order, (∀ p ∈ order, p < w'.bank.size) →
      ∃ stats w'', w'.tickOver mode order = .ok (stats, w'') ∧ w.Later w'') := by
  have hkept := Store.confines_kept hincrement hdecrement
  have hstart : w.store.Confines w.store := ⟨fun _ hb => hb, fun _ _ => rfl⟩
  have hend : w.store.Confines w'.store := hlater.kept hkept hstart
  have hsound : w'.Sound := hlater.sound h.sound
  refine ⟨⟨hend.bytes, ?_, ?_⟩, hend.same, ?_, ?_⟩
  · intro hb
    exact hincrement (hend.bytes _ hb)
  · intro hb
    exact hdecrement (hend.bytes _ hb)
  · intro mode order
    obtain ⟨x, hplay, -⟩ := interleave_ok hsound mode order
    have hx := interleave_kept hkept hend hplay
    exact ⟨x, hplay, hx.bytes, hx.same⟩
  · intro mode order horder
    obtain ⟨stats, w'', htick, -⟩ := tickOver_ok hsound mode horder
    exact ⟨stats, w'', htick, hlater.tickOver horder htick⟩

/-- Two programs, the first of which copies its own first byte to its neighbour. -/
def spreading : World where
  config := ⟨3, 2, 1, ⟨false, false, some 3⟩, none⟩
  torus := .couple
  store := .couple 46 123 4 7 93 0
  bank := ⟨3, #[.start, .start]⟩
  ticks := 0

/-- The copy instruction spreads to the second program, which then copies, too; a world
of zero bytes stays as it is. -/
theorem bytes_of_later_spreading :
    (spreading.Reachable ∧ ∃ stats w', spreading.tickOver .run [1, 0] = .ok (stats, w') ∧
      w'.store.cells = #[46, 123, 4, 46, 93, 0] ∧
      ∃ x, w'.interleave .run [1, 0, 1, 1] = .ok x ∧
        ∀ b ∈ x.store.cells, b ∈ spreading.store.cells) ∧
    ∃ w reply w', ofConfig ⟨3, 2, 1, .persistent, none⟩ = .ok w ∧
      w.perform (.runTicks 2) = .ok (reply, w') ∧ w'.store = w.store := by
  constructor
  · have hbytes : (#[46, 123, 4, 7, 93, 0] : Array UInt32).map UInt32.toUInt8 =
        #[46, 123, 4, 7, 93, 0] := by simp
    have hbuilt : ofBuffers spreading.config #[46, 123, 4, 7, 93, 0] none = .ok spreading := by
      simp only [ofBuffers, Store.ofCells, Store.writeCells, hbytes]
      rfl
    have htick : spreading.tickOver .run [1, 0] = .ok (_, _) := rfl
    have hlater := Later.refl.tickOver (by decide) htick
    obtain ⟨-, -, horders, -⟩ :=
      bytes_of_later (.ofBuffers hbuilt) (by decide +kernel) (by decide +kernel) hlater
    obtain ⟨x, hplay, hx, -⟩ := horders .run [1, 0, 1, 1]
    exact ⟨.ofBuffers hbuilt, _, _, htick, rfl, x, hplay, hx⟩
  · obtain ⟨w, hbuilt, hzero⟩ : ∃ w, ofConfig ⟨3, 2, 1, .persistent, none⟩ = .ok w ∧
        w.store.cells = #[0, 0, 0, 0, 0, 0] := ⟨_, rfl, rfl⟩
    have hreachable : w.Reachable := .ofConfig hbuilt
    obtain ⟨reply, w', hperform, -⟩ := perform_ok hreachable.sound (.runTicks 2)
    have hcall : (Call.runTicks 2).LeavesTapes := trivial
    have hlater := Later.refl.perform hcall hperform
    obtain ⟨-, hsame, -⟩ := bytes_of_later hreachable (hzero ▸ by decide +kernel)
      (hzero ▸ by decide +kernel) hlater
    exact ⟨w, reply, w', hbuilt, hperform,
      hsame (hzero ▸ by decide +kernel) (hzero ▸ by decide +kernel)⟩

end World
end TapeTorus
