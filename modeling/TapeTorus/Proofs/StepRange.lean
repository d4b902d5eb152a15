import Mathlib.Algebra.Group.Nat.Defs
import TapeTorus.Step

/-!
# Instructions stay on the tape

A step of a program whose registers name cells of its own tape succeeds and
leaves registers that do so again, on a store of the same shape
(`Machine.step_ok`).  No scan, head move, address or neighbour leaves its range.
-/

namespace TapeTorus

/-! ## Neighbours -/

namespace Torus

/-- A torus of one program, which is its own neighbour on all sides. -/
def lone : Torus := ⟨1, 1, Nat.one_pos, Nat.one_pos, by decide⟩

/-- A torus of two programs side by side. -/
def couple : Torus := ⟨2, 1, Nat.two_pos, Nat.one_pos, by decide⟩

theorem row_lt (t : Torus) {i : Nat} (hi : i < t.size) : i / t.width < t.height :=
  Nat.div_lt_of_lt_mul hi

theorem row_le_size (t : Torus) {i : Nat} (hi : i < t.size) :
    t.width * (i / t.width) + t.width ≤ t.size := by
  have hrow := t.row_lt hi
  calc t.width * (i / t.width) + t.width = t.width * (i / t.width + 1) := by
        rw [Nat.mul_add, Nat.mul_one]
    _ ≤ t.width * t.height := Nat.mul_le_mul_left _ hrow

theorem neighbor_ok (t : Torus) {i : Nat} (hi : i < t.size) (d : Direction) :
    ∃ j, t.neighbor i d = .ok j ∧ j < t.size := by
  have hwidth := t.width_pos
  have hle := t.width_le_size
  have hsize := t.size_lt
  have hrow := t.row_le_size hi
  have hdiv := Nat.div_add_mod i t.width
  have hmod := Nat.mod_lt i t.width_pos
  cases d with
  | east =>
    simp only [neighbor, Size.sub_eq_ok (show 1 ≤ t.width by omega), ok_bind]
    split
    · exact ⟨_, Size.sub_eq_ok (by omega), by omega⟩
    · exact ⟨_, Size.add_eq_ok (by omega), by omega⟩
  | west =>
    simp only [neighbor, Size.sub_eq_ok (show 1 ≤ t.width by omega), ok_bind]
    split
    · exact ⟨_, Size.add_eq_ok (by omega), by omega⟩
    · exact ⟨_, Size.sub_eq_ok (by omega), by omega⟩
  | south =>
    simp only [neighbor, Size.sub_eq_ok hle, ok_bind]
    split
    · exact ⟨_, Size.sub_eq_ok (by omega), by omega⟩
    · exact ⟨_, Size.add_eq_ok (by omega), by omega⟩
  | north =>
    simp only [neighbor, Size.sub_eq_ok hle, ok_bind]
    split
    · exact ⟨_, Size.add_eq_ok (by omega), by omega⟩
    · exact ⟨_, Size.sub_eq_ok (by omega), by omega⟩

end Torus

/-! ## Stores of one shape -/

namespace Store

/-- Two tapes of three cells each. -/
def couple (a b c d e f : UInt8) : Store :=
  ⟨3, 2, #[a, b, c, d, e, f], by decide, Nat.two_pos, rfl, by decide⟩

/-- The two stores hold equally many tapes of the same length. -/
structure SameShape (s t : Store) : Prop where
  tapeLength_eq : s.tapeLength = t.tapeLength
  programs_eq : s.programs = t.programs

@[refl] theorem SameShape.refl (s : Store) : s.SameShape s := ⟨rfl, rfl⟩

theorem SameShape.symm {s t : Store} (h : s.SameShape t) : t.SameShape s :=
  ⟨h.1.symm, h.2.symm⟩

theorem SameShape.trans {s t u : Store} (h₁ : s.SameShape t) (h₂ : t.SameShape u) :
    s.SameShape u :=
  ⟨h₁.1.trans h₂.1, h₁.2.trans h₂.2⟩

theorem SameShape.eq_of_cells {s t : Store} (h : s.SameShape t) (hcells : s.cells = t.cells) :
    s = t := by
  obtain ⟨hlength, hprograms⟩ := h
  cases s
  cases t
  simp only at hlength hprograms hcells
  subst hlength hprograms hcells
  rfl

theorem update_sameShape (s : Store) (program offset : Nat) (value : UInt8) :
    (s.update program offset value).SameShape s := ⟨rfl, rfl⟩

/-! ## Scans -/

theorem closingOf_eq_ok (s : Store) {program ip : Nat} (hp : program < s.programs)
    (hip : ip < s.tapeLength) :
    s.closingOf program ip = .ok (Bracket.matchForward? (s.cell program) s.tapeLength ip) := by
  have hlength := s.tapeLength_lt
  have hcount : s.tapeLength - (ip + 1) = s.tapeLength - 1 - ip := by omega
  rw [closingOf, Bracket.matchForward?, hcount]
  apply Bracket.seekUp_eq
  · intro o _ ho
    exact s.load_eq_ok hp (by omega)
  · omega
  · omega

theorem openingOf_eq_ok (s : Store) {program ip : Nat} (hp : program < s.programs)
    (hip : ip < s.tapeLength) :
    s.openingOf program ip = .ok (Bracket.matchBackward? (s.cell program) ip) := by
  have hlength := s.tapeLength_lt
  apply Bracket.seekDown_eq
  · intro o ho
    exact s.load_eq_ok hp (by omega)
  · omega

end Store

/-! ## Heads -/

namespace Machine

theorem ringPrev_ok {position length : Nat} (hposition : position < length)
    (hlength : length ≤ 2 ^ 32) :
    ∃ head, ringPrev position (length - 1) = .ok head ∧
      head.toNat = (position + (length - 1)) % length := by
  unfold ringPrev
  by_cases h : position = 0
  · refine ⟨_, if_pos h, ?_⟩
    rw [Registers.toNat_ofNat (by omega), h, Nat.zero_add, Nat.mod_eq_of_lt (by omega)]
  · rw [if_neg h, Size.sub_eq_ok (by omega)]
    refine ⟨_, rfl, ?_⟩
    have hwrap : position + (length - 1) = position - 1 + length := by omega
    rw [Registers.toNat_ofNat (by omega), hwrap, Nat.add_mod_right, Nat.mod_eq_of_lt (by omega)]

theorem ringNext_ok {position length : Nat} (hposition : position < length)
    (hlength : length ≤ 2 ^ 32) :
    ∃ head, ringNext position (length - 1) = .ok head ∧
      head.toNat = (position + 1) % length := by
  unfold ringNext
  by_cases h : position = length - 1
  · refine ⟨_, if_pos h, ?_⟩
    have hwrap : position + 1 = length := by omega
    simp [hwrap]
  · rw [if_neg h, Size.add_eq_ok (by simp only [Size.limit]; omega)]
    refine ⟨_, rfl, ?_⟩
    rw [Registers.toNat_ofNat (by omega), Nat.mod_eq_of_lt (by omega)]

theorem exists_ringPrev (position last : Nat) : ∃ head, ringPrev position last = .ok head := by
  unfold ringPrev
  by_cases h : position = 0
  · exact ⟨_, if_pos h⟩
  · rw [if_neg h, Size.sub_eq_ok (by omega)]
    exact ⟨_, rfl⟩

theorem exists_ringNext (position : UInt32) (last : Nat) :
    ∃ head, ringNext position.toNat last = .ok head := by
  have hposition := position.toNat_lt
  unfold ringNext
  by_cases h : position.toNat = last
  · exact ⟨_, if_pos h⟩
  · rw [if_neg h, Size.add_eq_ok (by simp only [Size.limit]; omega)]
    exact ⟨_, rfl⟩

/-! ## Effects on heads and cells -/

/-- The store holds just the tapes of the torus, and a register can name each
of their cells. -/
structure Fits (m : Machine) (s : Store) : Prop where
  programs_eq : s.programs = m.torus.size
  addressable : s.tapeLength ≤ 2 ^ 32

theorem Fits.of_sameShape {m : Machine} {s t : Store} (h : m.Fits s) (hst : t.SameShape s) :
    m.Fits t :=
  ⟨hst.programs_eq.trans h.programs_eq, hst.tapeLength_eq ▸ h.addressable⟩

theorem copyTarget_ok {m : Machine} {s : Store} {program : Nat}
    (hprograms : s.programs = m.torus.size) (hp : program < s.programs) :
    ∃ q, m.copyTarget program s = .ok q ∧ q < s.programs := by
  have hlast : s.tapeLength - 1 < s.tapeLength := Nat.sub_lt s.tapeLength_pos (by omega)
  rw [copyTarget, s.load_eq_ok hp hlast, hprograms]
  exact m.torus.neighbor_ok (hprograms ▸ hp) _

/-- An instruction either moves heads along their tape or writes one cell, which
is one of the own tape unless a byte is pushed to the selected neighbour. -/
theorem act_cases {m : Machine} {s s' : Store} {program : Nat} {r r' : Registers}
    {i : Option Instruction} (hlength : s.tapeLength ≤ 2 ^ 32) (hr : r.Within s.tapeLength)
    (h : m.act program r s i = .ok (r', s')) :
    (s' = s ∧ r'.ip = r.ip ∧ r'.Within s.tapeLength) ∨
      (r' = r ∧ ∃ q o value, s.write q o value = .ok s' ∧
        (q = program ∨ i = some .push ∧ m.copyTarget program s = .ok q)) := by
  obtain ⟨hip, hhead0, hhead1⟩ := hr
  have hpos := s.tapeLength_pos
  match i, h with
  | some .head0Left, h =>
    obtain ⟨head, hhead, hvalue⟩ := ringPrev_ok hhead0 hlength
    simp only [act, hhead, ok_bind, pure_eq_ok, Except.ok.injEq, Prod.mk.injEq] at h
    obtain ⟨rfl, rfl⟩ := h
    exact .inl ⟨rfl, rfl, hip, hvalue ▸ Nat.mod_lt _ hpos, hhead1⟩
  | some .head0Right, h =>
    obtain ⟨head, hhead, hvalue⟩ := ringNext_ok hhead0 hlength
    simp only [act, hhead, ok_bind, pure_eq_ok, Except.ok.injEq, Prod.mk.injEq] at h
    obtain ⟨rfl, rfl⟩ := h
    exact .inl ⟨rfl, rfl, hip, hvalue ▸ Nat.mod_lt _ hpos, hhead1⟩
  | some .head1Left, h =>
    obtain ⟨head, hhead, hvalue⟩ := ringPrev_ok hhead1 hlength
    simp only [act, hhead, ok_bind, pure_eq_ok, Except.ok.injEq, Prod.mk.injEq] at h
    obtain ⟨rfl, rfl⟩ := h
    exact .inl ⟨rfl, rfl, hip, hhead0, hvalue ▸ Nat.mod_lt _ hpos⟩
  | some .head1Right, h =>
    obtain ⟨head, hhead, hvalue⟩ := ringNext_ok hhead1 hlength
    simp only [act, hhead, ok_bind, pure_eq_ok, Except.ok.injEq, Prod.mk.injEq] at h
    obtain ⟨rfl, rfl⟩ := h
    exact .inl ⟨rfl, rfl, hip, hhead0, hvalue ▸ Nat.mod_lt _ hpos⟩
  | some .decrement, h | some .increment, h =>
    simp only [act, bind_eq_ok_iff, pure_eq_ok, Except.ok.injEq, Prod.mk.injEq] at h
    obtain ⟨value, _, t, hwrite, rfl, rfl⟩ := h
    exact .inr ⟨rfl, _, _, _, hwrite, .inl rfl⟩
  | some .push, h =>
    simp only [act, bind_eq_ok_iff, pure_eq_ok, Except.ok.injEq, Prod.mk.injEq] at h
    obtain ⟨q, hq, value, _, t, hwrite, rfl, rfl⟩ := h
    exact .inr ⟨rfl, _, _, _, hwrite, .inr ⟨rfl, hq⟩⟩
  | some .pull, h =>
    simp only [act, bind_eq_ok_iff, pure_eq_ok, Except.ok.injEq, Prod.mk.injEq] at h
    obtain ⟨q, _, value, _, t, hwrite, rfl, rfl⟩ := h
    exact .inr ⟨rfl, _, _, _, hwrite, .inl rfl⟩
  | some .loopStart, h | some .loopEnd, h | none, h =>
    simp only [act, pure_eq_ok, Except.ok.injEq, Prod.mk.injEq] at h
    obtain ⟨rfl, rfl⟩ := h
    exact .inl ⟨rfl, rfl, hip, hhead0, hhead1⟩

theorem act_within {m : Machine} {s s' : Store} {program : Nat} {r r' : Registers}
    {i : Option Instruction} (hlength : s.tapeLength ≤ 2 ^ 32) (hr : r.Within s.tapeLength)
    (h : m.act program r s i = .ok (r', s')) :
    r'.ip = r.ip ∧ r'.Within s.tapeLength ∧ s'.SameShape s := by
  obtain ⟨rfl, hip, hr'⟩ | ⟨rfl, q, o, value, hwrite, -⟩ := act_cases hlength hr h
  · exact ⟨hip, hr', .refl _⟩
  · obtain ⟨-, rfl⟩ := (s.write_eq_ok_iff s').1 hwrite
    exact ⟨rfl, hr, s.update_sameShape q o value⟩

private theorem act_ok {m : Machine} {s : Store} {program : Nat} {r : Registers}
    (hprograms : s.programs = m.torus.size) (hp : program < s.programs)
    (hr : r.Within s.tapeLength) (i : Option Instruction) :
    ∃ r' s', m.act program r s i = .ok (r', s') := by
  obtain ⟨hip, hhead0, hhead1⟩ := hr
  obtain ⟨q, hq, hqp⟩ := copyTarget_ok hprograms hp
  match i with
  | some .head0Left =>
    obtain ⟨head, hhead⟩ := exists_ringPrev r.head0.toNat (s.tapeLength - 1)
    exact ⟨_, _, by simp only [act, hhead]; rfl⟩
  | some .head0Right =>
    obtain ⟨head, hhead⟩ := exists_ringNext r.head0 (s.tapeLength - 1)
    exact ⟨_, _, by simp only [act, hhead]; rfl⟩
  | some .head1Left =>
    obtain ⟨head, hhead⟩ := exists_ringPrev r.head1.toNat (s.tapeLength - 1)
    exact ⟨_, _, by simp only [act, hhead]; rfl⟩
  | some .head1Right =>
    obtain ⟨head, hhead⟩ := exists_ringNext r.head1 (s.tapeLength - 1)
    exact ⟨_, _, by simp only [act, hhead]; rfl⟩
  | some .decrement | some .increment =>
    exact ⟨_, _, by simp only [act, s.load_eq_ok hp hhead0, s.write_eq_ok _ hp hhead0]; rfl⟩
  | some .push =>
    exact ⟨_, _, by
      simp only [act, hq, ok_bind, s.load_eq_ok hp hhead0, s.write_eq_ok _ hqp hhead1]; rfl⟩
  | some .pull =>
    exact ⟨_, _, by
      simp only [act, hq, ok_bind, s.load_eq_ok hqp hhead1, s.write_eq_ok _ hp hhead0]; rfl⟩
  | some .loopStart | some .loopEnd | none => exact ⟨_, _, rfl⟩

/-! ## Targets and the move of the pointer -/

theorem target_loopStart {s : Store} {program : Nat} {r : Registers} (hp : program < s.programs)
    (hr : r.Within s.tapeLength) :
    target program r s (some .loopStart) = .ok (if s.cell program r.head0.toNat = 0
      then Bracket.matchForward? (s.cell program) s.tapeLength r.ip.toNat
      else some r.ip.toNat) := by
  simp only [target, s.load_eq_ok hp hr.2.1, ok_bind]
  split
  · exact s.closingOf_eq_ok hp hr.1
  · rfl

theorem target_loopEnd {s : Store} {program : Nat} {r : Registers} (hp : program < s.programs)
    (hr : r.Within s.tapeLength) :
    target program r s (some .loopEnd) = .ok (if s.cell program r.head0.toNat = 0
      then some r.ip.toNat
      else Bracket.matchBackward? (s.cell program) r.ip.toNat) := by
  simp only [target, s.load_eq_ok hp hr.2.1, ok_bind]
  split
  · rfl
  · exact s.openingOf_eq_ok hp hr.1

theorem target_of_ne {s : Store} {program : Nat} {r : Registers} {i : Option Instruction}
    (hstart : i ≠ some .loopStart) (hend : i ≠ some .loopEnd) :
    target program r s i = .ok (some r.ip.toNat) := by
  unfold target
  split <;> simp_all

/-- A program goes on behind a position of its own tape, if at all. -/
theorem target_ok {s : Store} {program : Nat} {r : Registers} (hp : program < s.programs)
    (hr : r.Within s.tapeLength) (i : Option Instruction) :
    ∃ t, target program r s i = .ok t ∧ ∀ position ∈ t, position < s.tapeLength := by
  have hip := hr.1
  by_cases hstart : i = some .loopStart
  · subst hstart
    refine ⟨_, target_loopStart hp hr, fun position h => ?_⟩
    split at h
    · have := Bracket.scanUp_lt h
      omega
    · obtain rfl := Option.some.inj h
      exact hip
  by_cases hend : i = some .loopEnd
  · subst hend
    refine ⟨_, target_loopEnd hp hr, fun position h => ?_⟩
    split at h
    · obtain rfl := Option.some.inj h
      exact hip
    · exact Nat.lt_trans (Bracket.scanDown_lt h) hip
  · refine ⟨_, target_of_ne hstart hend, fun position h => ?_⟩
    obtain rfl := Option.some.inj h
    exact hip

theorem proceed_eq_ok {m : Machine} {s : Store} {position : Nat} (r : Registers)
    (hposition : position < s.tapeLength) :
    m.proceed position r s = .ok (if position + 1 = s.tapeLength
      then ⟨if m.exec.persist then .running else .halted, { r with ip := 0 }, s⟩
      else ⟨.running, { r with ip := .ofNat (position + 1) }, s⟩) := by
  have hlength := s.tapeLength_lt
  rw [proceed, Size.add_eq_ok (by omega), ok_bind]
  split <;> rfl

private theorem proceed_ok (m : Machine) {s : Store} {position : Nat} {r : Registers}
    (hlength : s.tapeLength ≤ 2 ^ 32) (hposition : position < s.tapeLength)
    (hr : r.Within s.tapeLength) :
    ∃ x, m.proceed position r s = .ok x ∧ x.registers.Within s.tapeLength ∧ x.store = s := by
  refine ⟨_, proceed_eq_ok r hposition, ?_⟩
  split
  · exact ⟨⟨s.tapeLength_pos, hr.2⟩, rfl⟩
  · refine ⟨⟨?_, hr.2⟩, rfl⟩
    rw [Registers.toNat_ofNat (by omega)]
    omega

/-! ## Whole instructions -/

/-- Unless the program halts on the spot, the byte under the pointer yields both
the target and the new heads and cells. -/
theorem execute_cases {m : Machine} {s : Store} {program : Nat} {r : Registers}
    {e : Option (Nat × Registers × Store)} (hp : program < s.programs)
    (hip : r.ip.toNat < s.tapeLength) (h : m.execute program r s = .ok e) :
    e = none ∨ ∃ position r' s', e = some (position, r', s') ∧
      target program r s (Instruction.ofByte? (s.cell program r.ip.toNat)) = .ok (some position) ∧
      m.act program r s (Instruction.ofByte? (s.cell program r.ip.toNat)) = .ok (r', s') := by
  rw [execute, s.load_eq_ok hp hip, ok_bind] at h
  split at h
  · exact .inl (Except.ok.inj h).symm
  · rw [bind_eq_ok_iff] at h
    obtain ⟨t, ht, h⟩ := h
    cases t with
    | none => exact .inl (Except.ok.inj h).symm
    | some position =>
      simp only [bind_eq_ok_iff] at h
      obtain ⟨⟨r', s'⟩, hact, h⟩ := h
      exact .inr ⟨position, r', s', (Except.ok.inj h).symm, ht, hact⟩

/-- What an instruction leaves behind before the pointer moves is in range, too. -/
theorem execute_within {m : Machine} {s s' : Store} {program position : Nat} {r r' : Registers}
    (hlength : s.tapeLength ≤ 2 ^ 32) (hp : program < s.programs) (hr : r.Within s.tapeLength)
    (h : m.execute program r s = .ok (some (position, r', s'))) :
    position < s.tapeLength ∧ r'.Within s.tapeLength ∧ s'.SameShape s := by
  obtain hnone | ⟨position', r'', s'', hsome, htarget, hact⟩ := execute_cases hp hr.1 h
  · simp at hnone
  · obtain ⟨rfl, rfl, rfl⟩ : position' = position ∧ r'' = r' ∧ s'' = s' := by simpa using hsome.symm
    obtain ⟨t, ht, hposition⟩ := target_ok hp hr (Instruction.ofByte? (s.cell program r.ip.toNat))
    rw [htarget, Except.ok.injEq] at ht
    exact ⟨hposition _ ht.symm, (act_within hlength hr hact).2⟩

theorem execute_ok {m : Machine} {s : Store} {program : Nat} {r : Registers}
    (hprograms : s.programs = m.torus.size) (hp : program < s.programs)
    (hr : r.Within s.tapeLength) : ∃ e, m.execute program r s = .ok e := by
  simp only [execute, s.load_eq_ok hp hr.1, ok_bind]
  split
  · exact ⟨_, rfl⟩
  obtain ⟨t, ht, -⟩ := target_ok hp hr (Instruction.ofByte? (s.cell program r.ip.toNat))
  obtain ⟨r', s', hact⟩ := act_ok hprograms hp hr (Instruction.ofByte? (s.cell program r.ip.toNat))
  rw [ht, ok_bind]
  cases t with
  | none => exact ⟨_, rfl⟩
  | some position => exact ⟨_, by rw [hact]; rfl⟩

/-- A step that succeeds keeps the registers on the tape and the shape of the store. -/
theorem step_within {m : Machine} {s : Store} {program : Nat} {r : Registers} {x : Stepped}
    (hlength : s.tapeLength ≤ 2 ^ 32) (hp : program < s.programs) (hr : r.Within s.tapeLength)
    (h : m.step program r s = .ok x) :
    x.registers.Within s.tapeLength ∧ x.store.SameShape s := by
  rw [step, bind_eq_ok_iff] at h
  obtain ⟨e, he, h⟩ := h
  cases e with
  | none =>
    obtain rfl := Except.ok.inj h
    exact ⟨hr, .refl s⟩
  | some e =>
    obtain ⟨position, r', s'⟩ := e
    obtain ⟨hposition, hr', hshape⟩ := execute_within hlength hp hr he
    rw [← hshape.tapeLength_eq] at hlength hposition hr' ⊢
    obtain ⟨x', hx', hwithin, rfl⟩ := proceed_ok m hlength hposition hr'
    obtain rfl := Except.ok.inj (hx'.symm.trans h)
    exact ⟨hwithin, hshape⟩

theorem step_ok {m : Machine} {s : Store} {program : Nat} {r : Registers} (hfit : m.Fits s)
    (hp : program < s.programs) (hr : r.Within s.tapeLength) :
    ∃ x, m.step program r s = .ok x ∧ x.registers.Within s.tapeLength ∧ x.store.SameShape s := by
  have hlength := hfit.addressable
  have hok : ∃ x, m.step program r s = .ok x := by
    obtain ⟨e, he⟩ := execute_ok hfit.programs_eq hp hr
    rw [step, he, ok_bind]
    cases e with
    | none => exact ⟨_, rfl⟩
    | some e =>
      obtain ⟨position, r', s'⟩ := e
      obtain ⟨hposition, hr', hshape⟩ := execute_within hlength hp hr he
      rw [← hshape.tapeLength_eq] at hlength hposition hr'
      obtain ⟨x, hx, -⟩ := proceed_ok m hlength hposition hr'
      exact ⟨x, hx⟩
  obtain ⟨x, hx⟩ := hok
  exact ⟨x, hx, step_within hlength hp hr hx⟩

end Machine
end TapeTorus
