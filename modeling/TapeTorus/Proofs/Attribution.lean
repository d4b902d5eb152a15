import TapeTorus.Proofs.Contents
import TapeTorus.Proofs.Paths
import TapeTorus.Proofs.Trace

/-!
# Who changes a tape

Every cell that a tick changes has been written by an instruction of the tick: by one of
the own program with head 0 on the cell, or by a push of a neighbour with head 1 on it.
Registers change by the instructions of their own program only
(`World.changes_attributable`).
-/

namespace TapeTorus

namespace Executed

/-- The instruction writes the cell `offset` of `program`. -/
inductive Writes (m : Machine) (e : Executed) (program offset : Nat) : Prop
  /-- It counts or pulls, with head 0 on a cell of its own tape. -/
  | own (hsymbol : e.symbol ∈ ['+', '-', ',']) (hprogram : e.program = program)
      (hhead0 : e.registers.head0.toNat = offset)
  /-- It pushes to the neighbour in the direction `d` that the last cell of its own tape
  selects. -/
  | push (d : Direction) (hsymbol : e.symbol = '.')
      (hselects : d = .ofSelector (e.store.cell e.program (e.store.tapeLength - 1)).toNat)
      (hneighbor : m.torus.neighbor e.program d = .ok program)
      (hhead1 : e.registers.head1.toNat = offset)

end Executed

namespace Machine

variable {m : Machine} {program : Nat} {r r' : Registers} {s s' : Store}

private theorem act_place {i : Option Instruction} (h : m.act program r s i = .ok (r', s')) :
    s' = s ∨ ∃ j q o value, i = some j ∧ s.write q o value = .ok s' ∧
      (j.symbol ∈ ['+', '-', ','] ∧ program = q ∧ r.head0.toNat = o ∨
        j.symbol = '.' ∧ m.copyTarget program s = .ok q ∧ r.head1.toNat = o) := by
  match i, h with
  | some .head0Left, h | some .head0Right, h | some .head1Left, h | some .head1Right, h =>
    simp only [act, bind_eq_ok_iff, pure_eq_ok, Except.ok.injEq, Prod.mk.injEq] at h
    obtain ⟨_, -, -, hs⟩ := h
    exact .inl hs.symm
  | some .increment, h | some .decrement, h =>
    simp only [act, bind_eq_ok_iff, pure_eq_ok, Except.ok.injEq, Prod.mk.injEq] at h
    obtain ⟨_, -, _, hwrite, -, rfl⟩ := h
    exact .inr ⟨_, _, _, _, rfl, hwrite, .inl ⟨by decide, rfl, rfl⟩⟩
  | some .push, h =>
    simp only [act, bind_eq_ok_iff, pure_eq_ok, Except.ok.injEq, Prod.mk.injEq] at h
    obtain ⟨_, htarget, _, -, _, hwrite, -, rfl⟩ := h
    exact .inr ⟨_, _, _, _, rfl, hwrite, .inr ⟨rfl, htarget, rfl⟩⟩
  | some .pull, h =>
    simp only [act, bind_eq_ok_iff, pure_eq_ok, Except.ok.injEq, Prod.mk.injEq] at h
    obtain ⟨_, -, _, -, _, hwrite, -, rfl⟩ := h
    exact .inr ⟨_, _, _, _, rfl, hwrite, .inl ⟨by decide, rfl, rfl⟩⟩
  | some .loopStart, h | some .loopEnd, h | none, h =>
    simp only [act, pure_eq_ok, Except.ok.injEq, Prod.mk.injEq] at h
    exact .inl h.2.symm

end Machine

namespace Executed

variable {m : Machine} {e : Executed} {s₀ : Store} {q o : Nat}

theorem InRange.writes (h : e.InRange m s₀) (ho : o < s₀.tapeLength)
    (hchanged : e.result.store.cell q o ≠ e.store.cell q o) : e.Writes m q o := by
  have hp := h.lt_programs
  have hstep := h.step_eq
  rw [Machine.step, bind_eq_ok_iff] at hstep
  obtain ⟨outcome, hexecute, hproceed⟩ := hstep
  obtain rfl | ⟨position, r', s', rfl, -, hact⟩ := Machine.execute_cases hp h.on_tape.1 hexecute
  · exact absurd (Except.ok.inj hproceed ▸ rfl) hchanged
  obtain ⟨hstore, -⟩ := Machine.proceed_agree rfl hproceed
  rw [hstore] at hchanged
  obtain rfl | ⟨j, q', o', value, hcode, hwrite, hplace⟩ := Machine.act_place hact
  · exact absurd rfl hchanged
  obtain ⟨⟨hq', ho'⟩, rfl⟩ := (e.store.write_eq_ok_iff s').1 hwrite
  rw [e.store.cell_update value hq' ho' (h.shape.tapeLength_eq ▸ ho)] at hchanged
  obtain ⟨rfl, rfl⟩ : q = q' ∧ o = o' := by
    by_contra hother
    exact hchanged (if_neg hother)
  have hsymbol : e.symbol = j.symbol := by
    rw [symbol, Store.symbol, Instruction.ofByte?_eq_some_iff.1 hcode, j.char_toByte]
  rw [← hsymbol] at hplace
  obtain ⟨hj, hprogram, hhead0⟩ | ⟨hj, htarget, hhead1⟩ := hplace
  · exact .own hj hprogram hhead0
  · exact .push _ hj rfl (Machine.copyTarget_eq_neighbor hp ▸ htarget) hhead1

/-- Only a program itself and its four neighbours write its tape. -/
theorem Writes.writer (hwrites : e.Writes m q o) (hp : e.program < m.torus.size) :
    e.program = q ∨ ∃ d, m.torus.neighbor q d = .ok e.program := by
  cases hwrites with
  | own _ hprogram _ => exact .inl hprogram
  | push d _ _ hneighbor _ => exact .inr ⟨_, m.torus.neighbor_opposite hp hneighbor⟩

end Executed

/-- A cell that holds another byte at the end of a trace has been written on the way. -/
theorem Race.Trace.exists_writes {m : Machine} {x y : Race} {l : List Executed} {s₀ : Store}
    (h : x.Trace m l y) (hl : ∀ e ∈ l, e.InRange m s₀) {q o : Nat} (ho : o < s₀.tapeLength)
    (hchanged : y.store.cell q o ≠ x.store.cell q o) : ∃ e ∈ l, e.Writes m q o := by
  induction h with
  | nil => exact absurd rfl hchanged
  | @cons x z p y l _ _ _ ih =>
    obtain ⟨hfirst, hrest⟩ := List.forall_mem_cons.1 hl
    by_cases hstep : y.store.cell q o = x.store.cell q o
    · obtain ⟨e, he, hwrites⟩ := ih hrest (hstep ▸ hchanged)
      exact ⟨e, List.mem_cons_of_mem _ he, hwrites⟩
    · exact ⟨_, List.mem_cons_self, hfirst.writes ho hstep⟩

namespace World

/-- A tick of a reachable world has a trace, in the order of the programs as in every other
order.  If it changes a cell, an instruction of the trace writes that cell, and none but
the one that writes it changes it.  Whoever writes a tape owns it or is a neighbour of its
owner.  The registers that a program is left with come from its own instructions, which
begin with those before the tick or, in a run, with the first cell. -/
theorem changes_attributable {w : World} (h : w.Reachable) (mode : Mode) :
    (∃ k w', w.tickIn mode = .ok (k.stats, w') ∧ k.InOrder ∧ w.TickTrace mode k w') ∧
    (∀ order x, w.interleave mode order = .ok x → w.Settled x →
      ∃ k, w.TickTrace mode k (w.settle x)) ∧
    ∀ k w', w.TickTrace mode k w' →
      (∀ q < w.store.programs, ∀ o < w.store.tapeLength,
        w'.store.cell q o ≠ w.store.cell q o → ∃ e ∈ k.trace, e.Writes w.machine q o) ∧
      (∀ e ∈ k.trace,
        w.machine.step e.program e.registers e.store = .ok e.result ∧
        (∀ q < w.store.programs, ∀ o < w.store.tapeLength,
          e.result.store.cell q o ≠ e.store.cell q o → e.Writes w.machine q o) ∧
        ∀ q o, e.Writes w.machine q o →
          e.program = q ∨ ∃ d, w.torus.neighbor q d = .ok e.program) ∧
      ∀ p r, w.bank.get p = .ok r →
        ∃ budget t, w.budget mode = .ok budget ∧ w'.bank.get p = .ok t.registers ∧
          w.machine.Drives (.fresh budget (mode.initial r)) (k.own p) t := by
  have hsound := h.sound
  refine ⟨exists_tickTrace hsound mode, fun order x => tickTrace_of_interleave, ?_⟩
  intro k w' htick
  obtain ⟨-, -, -, -, hrange⟩ := htick.inRange hsound
  refine ⟨fun q _ o ho hchanged => ?_, fun e he => ?_, fun p r hr => ?_⟩
  · obtain ⟨budget, x, -, htrace, -, rfl, -⟩ := htick
    exact htrace.exists_writes hrange ho hchanged
  · have hin := hrange e he
    refine ⟨hin.step_eq, fun q _ o ho hchanged => hin.writes ho hchanged, fun q o hwrites => ?_⟩
    exact hwrites.writer (hsound.programs_eq ▸ hin.program_lt)
  · obtain ⟨budget, t, hbudget, -, hdrives, ht⟩ := htick.drives hr
    exact ⟨budget, t, hbudget, ht, hdrives⟩

/-- The push of the first program changes the tape of the second one. -/
theorem changes_attributable_spreading :
    spreading.Reachable ∧ ∃ k w', spreading.tickIn .run = .ok (k.stats, w') ∧
      spreading.TickTrace .run k w' ∧ spreading.store.cell 1 0 = 7 ∧
        w'.store.cell 1 0 = 46 ∧ ∃ e ∈ k.trace, e.Writes spreading.machine 1 0 := by
  have hbytes : (#[46, 123, 4, 7, 93, 0] : Array UInt32).map UInt32.toUInt8 =
      #[46, 123, 4, 7, 93, 0] := by simp
  have hbuilt : ofBuffers spreading.config #[46, 123, 4, 7, 93, 0] none = .ok spreading := by
    simp only [ofBuffers, Store.ofCells, Store.writeCells, hbytes]
    rfl
  obtain ⟨⟨k, w', htick, -, htrace⟩, -, hticks⟩ := changes_attributable (.ofBuffers hbuilt) .run
  have hcell : (spreading.tickIn .run).map (fun x => x.2.store.cell 1 0) = .ok 46 := rfl
  rw [htick] at hcell
  have hafter : w'.store.cell 1 0 = 46 := Except.ok.inj hcell
  have hchanged : w'.store.cell 1 0 ≠ spreading.store.cell 1 0 := by
    rw [hafter]
    decide
  exact ⟨.ofBuffers hbuilt, k, w', htick, htrace, rfl, hafter,
    (hticks k w' htrace).1 1 (by decide) 0 (by decide) hchanged⟩

end World
end TapeTorus
