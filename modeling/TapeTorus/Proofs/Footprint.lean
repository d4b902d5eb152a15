import TapeTorus.Proofs.Interleaving

/-!
# The tapes that an instruction touches

An instruction depends on the own tape and, if it copies, on the tape of the
selected neighbour.  On stores that agree on these tapes it has the same outcome,
and it keeps all agreement between them (`Machine.step_agree`).  Every tape that
it does not touch stays as it is (`Machine.step_frame`).
-/

namespace TapeTorus

namespace Store

/-- The two stores hold the same bytes on the tape of `program`. -/
structure AgreeOn (program : Nat) (s t : Store) : Prop where
  shape : s.SameShape t
  cell_eq : ∀ o < s.tapeLength, s.cell program o = t.cell program o

namespace AgreeOn

variable {program : Nat} {s t u : Store}

@[refl] theorem refl (program : Nat) (s : Store) : s.AgreeOn program s :=
  ⟨.refl s, fun _ _ => rfl⟩

theorem symm (h : s.AgreeOn program t) : t.AgreeOn program s :=
  ⟨h.shape.symm, fun o ho => (h.cell_eq o (h.shape.tapeLength_eq ▸ ho)).symm⟩

theorem trans (hst : s.AgreeOn program t) (htu : t.AgreeOn program u) : s.AgreeOn program u :=
  ⟨hst.shape.trans htu.shape, fun o ho =>
    (hst.cell_eq o ho).trans (htu.cell_eq o (hst.shape.tapeLength_eq ▸ ho))⟩

theorem load_eq (h : s.AgreeOn program t) : s.load program = t.load program := by
  funext o
  obtain ⟨hlength, hprograms⟩ := h.shape
  by_cases ho : program < s.programs ∧ o < s.tapeLength
  · rw [s.load_eq_ok ho.1 ho.2, t.load_eq_ok (hprograms ▸ ho.1) (hlength ▸ ho.2),
      h.cell_eq o ho.2]
  · rw [s.load_eq_error ho, t.load_eq_error (hprograms ▸ hlength ▸ ho)]

end AgreeOn

theorem eq_of_agreeOn {s t : Store} (hshape : s.SameShape t)
    (h : ∀ p < s.programs, s.AgreeOn p t) : s = t := by
  apply hshape.eq_of_cells
  apply Array.ext
  · rw [s.size_eq, t.size_eq, hshape.programs_eq, hshape.tapeLength_eq]
  · intro i hs ht
    have hi : i < s.tapeLength * s.programs := by
      rw [Nat.mul_comm, ← s.size_eq]
      exact hs
    have hcell := (h (i / s.tapeLength) (Nat.div_lt_of_lt_mul hi)).cell_eq (i % s.tapeLength)
      (Nat.mod_lt _ s.tapeLength_pos)
    rw [cell, cell, ← hshape.tapeLength_eq, Nat.mul_comm, Nat.div_add_mod] at hcell
    simpa [hs, ht] using hcell

private theorem agreeOn_of_write {s s' : Store} {p q o : Nat} {value : UInt8}
    (h : s.write q o value = .ok s') (hne : p ≠ q) : s'.AgreeOn p s := by
  obtain ⟨⟨hq, ho⟩, rfl⟩ := (s.write_eq_ok_iff s').1 h
  refine ⟨s.update_sameShape q o value, fun o' ho' => ?_⟩
  rw [s.cell_update value hq ho ho', if_neg fun heq => hne heq.1]

private theorem write_agree {s s' t : Store} {q o : Nat} {value : UInt8} (hshape : s.SameShape t)
    (h : s.write q o value = .ok s') :
    ∃ t', t.write q o value = .ok t' ∧ ∀ p, s.AgreeOn p t → s'.AgreeOn p t' := by
  obtain ⟨⟨hq, ho⟩, rfl⟩ := (s.write_eq_ok_iff s').1 h
  obtain ⟨hlength, hprograms⟩ := hshape
  have hq' : q < t.programs := hprograms ▸ hq
  have ho' : o < t.tapeLength := hlength ▸ ho
  refine ⟨_, t.write_eq_ok value hq' ho', fun p hp => ⟨⟨hlength, hprograms⟩, fun o'' hlt => ?_⟩⟩
  rw [s.cell_update value hq ho hlt, t.cell_update value hq' ho' (hlength ▸ hlt), hp.cell_eq _ hlt]

end Store

namespace Machine

open Store (AgreeOn)

variable {m : Machine} {program : Nat} {r r' : Registers} {s s' t : Store}

/-- The neighbour whose tape the instruction under the pointer touches: the selected
one if the instruction copies. -/
def copied (m : Machine) (program : Nat) (r : Registers) (s : Store) :
    Except Fault (Option Nat) := do
  let byte ← s.load program r.ip.toNat
  match Instruction.ofByte? byte with
  | some .push | some .pull => do
    let q ← m.copyTarget program s
    return some q
  | _ => return none

/-! ## Agreement -/

private theorem copyTarget_agree (h : s.AgreeOn program t) :
    m.copyTarget program s = m.copyTarget program t := by
  rw [copyTarget, copyTarget, h.load_eq, h.shape.tapeLength_eq]

theorem copied_agree (h : s.AgreeOn program t) :
    m.copied program r s = m.copied program r t := by
  rw [copied, copied, h.load_eq, copyTarget_agree h]

theorem target_agree (h : s.AgreeOn program t) (i : Option Instruction) :
    target program r s i = target program r t i := by
  simp only [target, Store.closingOf, Store.openingOf, h.load_eq, h.shape.tapeLength_eq]

private theorem act_agree {i : Option Instruction} (hown : s.AgreeOn program t)
    (hcopy : i = some .push ∨ i = some .pull →
      ∀ q, m.copyTarget program s = .ok q → s.AgreeOn q t)
    (h : m.act program r s i = .ok (r', s')) :
    ∃ t', m.act program r t i = .ok (r', t') ∧ ∀ q, s.AgreeOn q t → s'.AgreeOn q t' := by
  have hload := hown.load_eq
  have hlength := hown.shape.tapeLength_eq
  match i, h with
  | some .head0Left, h | some .head0Right, h | some .head1Left, h | some .head1Right, h =>
    simp only [act, bind_eq_ok_iff, pure_eq_ok, Except.ok.injEq, Prod.mk.injEq] at h
    obtain ⟨head, hhead, rfl, rfl⟩ := h
    rw [hlength] at hhead
    exact ⟨t, by rw [act, hhead]; rfl, fun _ h => h⟩
  | some .decrement, h | some .increment, h =>
    simp only [act, bind_eq_ok_iff, pure_eq_ok, Except.ok.injEq, Prod.mk.injEq] at h
    obtain ⟨value, hvalue, s₁, hwrite, rfl, rfl⟩ := h
    obtain ⟨t', hwrite', hagree⟩ := Store.write_agree hown.shape hwrite
    rw [hload] at hvalue
    exact ⟨t', by rw [act, hvalue, ok_bind, hwrite']; rfl, hagree⟩
  | some .push, h =>
    simp only [act, bind_eq_ok_iff, pure_eq_ok, Except.ok.injEq, Prod.mk.injEq] at h
    obtain ⟨q, hq, value, hvalue, s₁, hwrite, rfl, rfl⟩ := h
    obtain ⟨t', hwrite', hagree⟩ := Store.write_agree hown.shape hwrite
    rw [copyTarget_agree hown] at hq
    rw [hload] at hvalue
    exact ⟨t', by rw [act, hq, ok_bind, hvalue, ok_bind, hwrite']; rfl, hagree⟩
  | some .pull, h =>
    simp only [act, bind_eq_ok_iff, pure_eq_ok, Except.ok.injEq, Prod.mk.injEq] at h
    obtain ⟨q, hq, value, hvalue, s₁, hwrite, rfl, rfl⟩ := h
    obtain ⟨t', hwrite', hagree⟩ := Store.write_agree hown.shape hwrite
    rw [(hcopy (.inr rfl) q hq).load_eq] at hvalue
    rw [copyTarget_agree hown] at hq
    exact ⟨t', by rw [act, hq, ok_bind, hvalue, ok_bind, hwrite']; rfl, hagree⟩
  | some .loopStart, h | some .loopEnd, h | none, h =>
    simp only [act, pure_eq_ok, Except.ok.injEq, Prod.mk.injEq] at h
    obtain ⟨rfl, rfl⟩ := h
    exact ⟨t, rfl, fun _ h => h⟩

theorem proceed_agree {position : Nat} {x : Stepped} (hlength : s.tapeLength = t.tapeLength)
    (h : m.proceed position r s = .ok x) :
    x.store = s ∧ m.proceed position r t = .ok ⟨x.outcome, x.registers, t⟩ := by
  rw [proceed, bind_eq_ok_iff] at h
  obtain ⟨next, hnext, h⟩ := h
  rw [proceed, hnext, ok_bind, ← hlength]
  split at h
  · rename_i hlast
    obtain rfl := Except.ok.inj h
    exact ⟨rfl, if_pos hlast⟩
  · rename_i hlast
    obtain rfl := Except.ok.inj h
    exact ⟨rfl, if_neg hlast⟩

private theorem copied_of_copy {i : Instruction} {q : Nat} (hp : program < s.programs)
    (hip : r.ip.toNat < s.tapeLength)
    (hcode : Instruction.ofByte? (s.cell program r.ip.toNat) = some i)
    (hcopy : i = .push ∨ i = .pull) (hq : m.copyTarget program s = .ok q) :
    m.copied program r s = .ok (some q) := by
  rw [copied, s.load_eq_ok hp hip, ok_bind, hcode]
  obtain rfl | rfl := hcopy
  · simp only [hq, ok_bind, pure_eq_ok]
  · simp only [hq, ok_bind, pure_eq_ok]

private theorem execute_agree {e : Option (Nat × Registers × Store)} (hp : program < s.programs)
    (hip : r.ip.toNat < s.tapeLength) (hown : s.AgreeOn program t)
    (hcopied : ∀ q, m.copied program r s = .ok (some q) → s.AgreeOn q t)
    (h : m.execute program r s = .ok e) :
    (e = none ∧ m.execute program r t = .ok none) ∨
      ∃ position r' s' t', e = some (position, r', s') ∧
        m.execute program r t = .ok (some (position, r', t')) ∧
          ∀ q, s.AgreeOn q t → s'.AgreeOn q t' := by
  rw [execute, s.load_eq_ok hp hip, ok_bind] at h
  rw [execute, ← hown.load_eq, s.load_eq_ok hp hip, ok_bind, ← target_agree hown]
  split at h
  · rename_i hhalt
    exact .inl ⟨(Except.ok.inj h).symm, if_pos hhalt⟩
  · rename_i hhalt
    rw [if_neg hhalt]
    rw [bind_eq_ok_iff] at h
    obtain ⟨position, htarget, h⟩ := h
    rw [htarget, ok_bind]
    cases position with
    | none => exact .inl ⟨(Except.ok.inj h).symm, rfl⟩
    | some position =>
      rw [bind_eq_ok_iff] at h
      obtain ⟨⟨r', s'⟩, hact, h⟩ := h
      have hcopy : ∀ q, Instruction.ofByte? (s.cell program r.ip.toNat) = some .push ∨
          Instruction.ofByte? (s.cell program r.ip.toNat) = some .pull →
            m.copyTarget program s = .ok q → s.AgreeOn q t := by
        rintro q (hpush | hpull) hq
        · exact hcopied q (copied_of_copy hp hip hpush (.inl rfl) hq)
        · exact hcopied q (copied_of_copy hp hip hpull (.inr rfl) hq)
      obtain ⟨t', hact', hagree⟩ := act_agree hown (fun hc q => hcopy q hc) hact
      refine .inr ⟨position, r', s', t', (Except.ok.inj h).symm, ?_, hagree⟩
      simp only [hact', ok_bind, pure_eq_ok]

theorem copied_ok (hfit : m.Fits s) (hp : program < s.programs)
    (hip : r.ip.toNat < s.tapeLength) :
    ∃ c, m.copied program r s = .ok c ∧ ∀ q ∈ c, q < s.programs := by
  obtain ⟨q, hq, hlt⟩ := copyTarget_ok hfit.programs_eq hp
  simp only [copied, s.load_eq_ok hp hip, ok_bind]
  split
  · exact ⟨some q, by rw [hq]; rfl, fun _ h => Option.some.inj h ▸ hlt⟩
  · exact ⟨some q, by rw [hq]; rfl, fun _ h => Option.some.inj h ▸ hlt⟩
  · exact ⟨none, rfl, fun _ h => by simp at h⟩

/-- On stores that agree on the touched tapes an instruction has the same outcome
and leaves the same registers, and the tapes that agreed before agree afterwards. -/
theorem step_agree {x : Stepped} (hp : program < s.programs) (hip : r.ip.toNat < s.tapeLength)
    (hown : s.AgreeOn program t)
    (hcopied : ∀ q, m.copied program r s = .ok (some q) → s.AgreeOn q t)
    (h : m.step program r s = .ok x) :
    ∃ t', m.step program r t = .ok ⟨x.outcome, x.registers, t'⟩ ∧
      ∀ q, s.AgreeOn q t → x.store.AgreeOn q t' := by
  rw [step, bind_eq_ok_iff] at h
  obtain ⟨e, he, h⟩ := h
  obtain ⟨rfl, he'⟩ | ⟨position, r', s', t', rfl, he', hagree⟩ :=
    execute_agree hp hip hown hcopied he
  · obtain rfl := Except.ok.inj h
    exact ⟨t, by rw [step, he']; rfl, fun _ h => h⟩
  · obtain ⟨hstore, hproceed⟩ := proceed_agree (hagree _ hown).shape.tapeLength_eq h
    refine ⟨t', by rw [step, he']; exact hproceed, ?_⟩
    rw [hstore]
    exact hagree

/-- An instruction leaves the tapes alone that it does not touch. -/
theorem step_frame {x : Stepped} {q : Nat} (hlength : s.tapeLength ≤ 2 ^ 32)
    (hp : program < s.programs) (hr : r.Within s.tapeLength) (hne : q ≠ program)
    (hcopied : m.copied program r s ≠ .ok (some q)) (h : m.step program r s = .ok x) :
    x.store.AgreeOn q s := by
  rw [step, bind_eq_ok_iff] at h
  obtain ⟨e, he, h⟩ := h
  obtain rfl | ⟨position, r', s', rfl, -, hact⟩ := execute_cases hp hr.1 he
  · obtain rfl := Except.ok.inj h
    rfl
  · obtain ⟨rfl, -⟩ := proceed_agree rfl h
    obtain ⟨hstore, -⟩ | ⟨-, q', o, value, hwrite, hown | ⟨hpush, htarget⟩⟩ :=
      act_cases hlength hr hact
    · rw [hstore]
    · exact Store.agreeOn_of_write hwrite (hown ▸ hne)
    · refine Store.agreeOn_of_write hwrite fun heq => hcopied ?_
      exact copied_of_copy hp hr.1 hpush (.inl rfl) (heq ▸ htarget)

end Machine
end TapeTorus
