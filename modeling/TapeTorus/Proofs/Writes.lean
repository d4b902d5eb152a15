import TapeTorus.Proofs.Footprint

/-!
# What an instruction writes

A step writes one cell at most.  The instruction that does so is itself a byte of the
store, and what it writes is new only if it counts.  Steps of a store that holds the
tapes of the torus always succeed, however long the tapes are: a register that is too
narrow for its tape cannot leave it (`Machine.exists_step`).
-/

namespace TapeTorus

private theorem Registers.within_of_le {length : Nat} (h : 2 ^ 32 ≤ length) (r : Registers) :
    r.Within length :=
  ⟨Nat.lt_of_lt_of_le r.ip.toNat_lt h, Nat.lt_of_lt_of_le r.head0.toNat_lt h,
    Nat.lt_of_lt_of_le r.head1.toNat_lt h⟩

/-! ## Bytes of a store -/

namespace Store

variable {s s' : Store} {p o : Nat} {b value : UInt8}

private theorem mem_of_load (h : s.load p o = .ok b) : b ∈ s.cells := by
  rw [load, bind_eq_ok_iff] at h
  obtain ⟨i, -, h⟩ := h
  split at h
  · rename_i byte hbyte
    have hb : byte = b := Except.ok.inj h
    exact hb ▸ Array.mem_of_getElem? hbyte
  · cases h

theorem mem_of_write (h : s.write p o value = .ok s') (hb : b ∈ s'.cells) :
    b = value ∨ b ∈ s.cells := by
  obtain ⟨-, rfl⟩ := (s.write_eq_ok_iff s').1 h
  exact (Array.mem_or_eq_of_mem_setIfInBounds hb).symm

end Store

/-! ## What one instruction writes -/

namespace Instruction

/-- The instructions that make a byte out of another. -/
def Counts (i : Instruction) : Prop := i = .increment ∨ i = .decrement

/-- The instructions that write a byte of one tape to another. -/
def Copies (i : Instruction) : Prop := i = .push ∨ i = .pull

end Instruction

namespace Machine

variable {m : Machine} {program : Nat} {r r' : Registers} {s s' : Store}

/-- The store changes by one write at most, by an instruction that counts or copies. -/
theorem act_written {i : Option Instruction} (h : m.act program r s i = .ok (r', s')) :
    s' = s ∨ ∃ j q o value, i = some j ∧ s.write q o value = .ok s' ∧
      (j.Counts ∨ j.Copies ∧ value ∈ s.cells) := by
  match i, h with
  | some .head0Left, h | some .head0Right, h | some .head1Left, h | some .head1Right, h =>
    simp only [act, bind_eq_ok_iff, pure_eq_ok, Except.ok.injEq, Prod.mk.injEq] at h
    obtain ⟨head, -, -, hs⟩ := h
    exact .inl hs.symm
  | some .increment, h =>
    simp only [act, bind_eq_ok_iff, pure_eq_ok, Except.ok.injEq, Prod.mk.injEq] at h
    obtain ⟨value, -, t, hwrite, -, rfl⟩ := h
    exact .inr ⟨_, _, _, _, rfl, hwrite, .inl (.inl rfl)⟩
  | some .decrement, h =>
    simp only [act, bind_eq_ok_iff, pure_eq_ok, Except.ok.injEq, Prod.mk.injEq] at h
    obtain ⟨value, -, t, hwrite, -, rfl⟩ := h
    exact .inr ⟨_, _, _, _, rfl, hwrite, .inl (.inr rfl)⟩
  | some .push, h =>
    simp only [act, bind_eq_ok_iff, pure_eq_ok, Except.ok.injEq, Prod.mk.injEq] at h
    obtain ⟨q, -, value, hload, t, hwrite, -, rfl⟩ := h
    exact .inr ⟨_, _, _, _, rfl, hwrite, .inr ⟨.inl rfl, Store.mem_of_load hload⟩⟩
  | some .pull, h =>
    simp only [act, bind_eq_ok_iff, pure_eq_ok, Except.ok.injEq, Prod.mk.injEq] at h
    obtain ⟨q, -, value, hload, t, hwrite, -, rfl⟩ := h
    exact .inr ⟨_, _, _, _, rfl, hwrite, .inr ⟨.inr rfl, Store.mem_of_load hload⟩⟩
  | some .loopStart, h | some .loopEnd, h | none, h =>
    simp only [act, pure_eq_ok, Except.ok.injEq, Prod.mk.injEq] at h
    exact .inl h.2.symm

private theorem act_of_execute {position : Nat}
    (h : m.execute program r s = .ok (some (position, r', s'))) :
    ∃ byte ∈ s.cells, m.act program r s (Instruction.ofByte? byte) = .ok (r', s') := by
  rw [execute, bind_eq_ok_iff] at h
  obtain ⟨byte, hload, h⟩ := h
  refine ⟨byte, Store.mem_of_load hload, ?_⟩
  split at h
  · cases h
  rw [bind_eq_ok_iff] at h
  obtain ⟨t, -, h⟩ := h
  cases t with
  | none => cases h
  | some target =>
    rw [bind_eq_ok_iff] at h
    obtain ⟨⟨r₁, s₁⟩, hact, h⟩ := h
    simp only [pure_eq_ok, Except.ok.injEq, Option.some.injEq, Prod.mk.injEq] at h
    obtain ⟨-, rfl, rfl⟩ := h
    exact hact

/-- A step writes one cell at most.  The instruction that writes stands in the store
itself, and if it copies, so does the byte that it writes. -/
theorem step_written {x : Stepped} (h : m.step program r s = .ok x) :
    x.store = s ∨ ∃ j q o value, Instruction.toByte j ∈ s.cells ∧
      s.write q o value = .ok x.store ∧ (j.Counts ∨ j.Copies ∧ value ∈ s.cells) := by
  rw [step, bind_eq_ok_iff] at h
  obtain ⟨e, he, h⟩ := h
  cases e with
  | none =>
    obtain rfl := Except.ok.inj h
    exact .inl rfl
  | some e =>
    obtain ⟨position, r', s'⟩ := e
    obtain ⟨hstore, -⟩ := proceed_agree rfl h
    obtain ⟨byte, hbyte, hact⟩ := act_of_execute he
    rw [hstore]
    obtain hsame | ⟨j, q, o, value, hj, hwrite, hvalue⟩ := act_written hact
    · exact .inl hsame
    · have hcode : j.toByte = byte := Instruction.toByte_of_ofByte? hj
      exact .inr ⟨j, q, o, value, hcode ▸ hbyte, hwrite, hvalue⟩

/-! ## Tapes of any length -/

theorem act_sameShape {i : Option Instruction} (h : m.act program r s i = .ok (r', s')) :
    s'.SameShape s := by
  obtain rfl | ⟨j, q, o, value, -, hwrite, -⟩ := act_written h
  · exact .refl s'
  · obtain ⟨-, rfl⟩ := (s.write_eq_ok_iff s').1 hwrite
    exact s.update_sameShape q o value

theorem step_sameShape {x : Stepped} (h : m.step program r s = .ok x) :
    x.store.SameShape s := by
  obtain hsame | ⟨j, q, o, value, -, hwrite, -⟩ := step_written h
  · rw [hsame]
  · obtain ⟨-, hupdate⟩ := (s.write_eq_ok_iff x.store).1 hwrite
    rw [← hupdate]
    exact s.update_sameShape q o value

theorem exists_step (hprograms : s.programs = m.torus.size) (hp : program < s.programs)
    (hr : r.Within s.tapeLength) : ∃ x, m.step program r s = .ok x := by
  obtain ⟨e, he⟩ := execute_ok hprograms hp hr
  rw [step, he, ok_bind]
  obtain rfl | ⟨position, r', s', rfl, htarget, hact⟩ := execute_cases hp hr.1 he
  · exact ⟨_, rfl⟩
  · obtain ⟨t, ht, hbound⟩ := target_ok hp hr (Instruction.ofByte? (s.cell program r.ip.toNat))
    rw [htarget, Except.ok.injEq] at ht
    have hposition : position < s'.tapeLength := by
      rw [(act_sameShape hact).tapeLength_eq]
      exact hbound position ht.symm
    exact ⟨_, proceed_eq_ok r' hposition⟩

private theorem within_of_step {x : Stepped} (hp : program < s.programs)
    (hr : r.Within s.tapeLength)
    (h : m.step program r s = .ok x) : x.registers.Within s.tapeLength := by
  by_cases hlength : s.tapeLength ≤ 2 ^ 32
  · exact (step_within hlength hp hr h).1
  · exact Registers.within_of_le (by omega) x.registers

theorem exists_runFrom (hprograms : s.programs = m.torus.size) (hp : program < s.programs)
    (hr : r.Within s.tapeLength) (budget done : Nat) :
    ∃ t, m.runFrom program budget done r s = .ok t := by
  induction budget generalizing done r s with
  | zero => exact ⟨_, rfl⟩
  | succ budget ih =>
    obtain ⟨⟨outcome, r', s'⟩, hstep⟩ := exists_step hprograms hp hr
    have hshape := step_sameShape hstep
    have hr' := within_of_step hp hr hstep
    rw [runFrom, hstep, ok_bind]
    cases outcome with
    | halted => exact ⟨_, rfl⟩
    | running =>
      rw [← hshape.tapeLength_eq] at hr'
      rw [← hshape.programs_eq] at hprograms hp
      exact ih hprograms hp hr' (done + 1)

end Machine
end TapeTorus
