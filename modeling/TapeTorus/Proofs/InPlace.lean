import TapeTorus.Proofs.Writes

/-!
# Instructions that change registers and cells in place

A step hands its registers and its store on, so that nothing can be seen of what it has
done before a fault.  Here every access is made at its time on registers and cells that
stay as a fault leaves them.  Still no half-done step is ever seen
(`Machine.run_stepInPlace`): the write of a cell is the last access of an instruction, and
the registers are set at its very end.
-/

namespace TapeTorus

/-- A computation on registers and cells that are changed in place.  A fault does not undo
what has been changed before. -/
abbrev InPlace (α : Type) := ExceptT Fault (StateM (Registers × Store)) α

namespace InPlace

variable {α β : Type}

/-- The result, and the registers and cells as they are left. -/
def run (x : InPlace α) (r : Registers) (s : Store) : Except Fault α × Registers × Store :=
  (ExceptT.run x).run (r, s)

/-- Looks at the cells as they stand. -/
def read (f : Store → Except Fault α) : InPlace α := do
  let (_, s) ← get
  MonadExcept.ofExcept (f s)

def write (program offset : Nat) (value : UInt8) : InPlace Unit := do
  let (r, s) ← get
  let s ← MonadExcept.ofExcept (s.write program offset value)
  set (r, s)

def registers : InPlace Registers := do
  let (r, _) ← get
  return r

def setRegisters (r : Registers) : InPlace Unit := modify fun z => (r, z.2)

variable {r : Registers} {s : Store}

theorem run_bind (x : InPlace α) (f : α → InPlace β) :
    run (x >>= f) r s =
      match run x r s with
      | (.ok a, r', s') => run (f a) r' s'
      | (.error e, r', s') => (.error e, r', s') := by
  unfold run
  rw [ExceptT.run_bind, StateT.run_bind]
  generalize StateT.run (ExceptT.run x) (r, s) = z
  match z with
  | (.ok a, r', s') => rfl
  | (.error e, r', s') => rfl

private theorem run_read (f : Store → Except Fault α) : run (read f) r s = (f s, r, s) := by
  have hget : run (read f) r s = run (MonadExcept.ofExcept (f s)) r s := rfl
  rw [hget]
  cases f s <;> rfl

private theorem run_write (program offset : Nat) (value : UInt8) :
    run (write program offset value) r s =
      match s.write program offset value with
      | .ok s' => (.ok (), r, s')
      | .error e => (.error e, r, s) := by
  have hget : run (write program offset value) r s =
      run (MonadExcept.ofExcept (s.write program offset value) >>= fun s' =>
        (set (r, s') : InPlace Unit)) r s := rfl
  rw [hget]
  cases s.write program offset value <;> rfl

private theorem run_registers : run registers r s = (.ok r, r, s) := rfl

end InPlace

namespace Machine

open InPlace (read write)

/-- What an instruction does to the cells, and the heads that it leads to. -/
def actInPlace (m : Machine) (program : Nat) (r : Registers) :
    Option Instruction → InPlace Registers
  | some .head0Left => do
    let head0 ← read fun s => ringPrev r.head0.toNat (s.tapeLength - 1)
    return { r with head0 := head0 }
  | some .head0Right => do
    let head0 ← read fun s => ringNext r.head0.toNat (s.tapeLength - 1)
    return { r with head0 := head0 }
  | some .head1Left => do
    let head1 ← read fun s => ringPrev r.head1.toNat (s.tapeLength - 1)
    return { r with head1 := head1 }
  | some .head1Right => do
    let head1 ← read fun s => ringNext r.head1.toNat (s.tapeLength - 1)
    return { r with head1 := head1 }
  | some .decrement => do
    let value ← read (·.load program r.head0.toNat)
    write program r.head0.toNat (value - 1)
    return r
  | some .increment => do
    let value ← read (·.load program r.head0.toNat)
    write program r.head0.toNat (value + 1)
    return r
  | some .push => do
    let target ← read (m.copyTarget program)
    let value ← read (·.load program r.head0.toNat)
    write target r.head1.toNat value
    return r
  | some .pull => do
    let source ← read (m.copyTarget program)
    let value ← read (·.load source r.head1.toNat)
    write program r.head0.toNat value
    return r
  | some .loopStart | some .loopEnd | none => return r

/-- Executes one instruction of `program`, with each access at its time. -/
def stepInPlace (m : Machine) (program : Nat) : InPlace Outcome := do
  let r ← InPlace.registers
  let byte ← read (·.load program r.ip.toNat)
  if byte = 0 ∧ m.exec.haltOnZero then return .halted
  else
    match ← read (target program r · (Instruction.ofByte? byte)) with
    | none => return .halted
    | some position => do
      let r ← m.actInPlace program r (Instruction.ofByte? byte)
      let x ← read (m.proceed position r)
      InPlace.setRegisters x.registers
      return x.outcome

variable {m : Machine} {program : Nat} {r r' : Registers} {s s' : Store}

theorem run_read_then {α β : Type} (f : Store → Except Fault α) (g : α → InPlace β) :
    InPlace.run (read f >>= g) r s =
      match f s with
      | .ok a => InPlace.run (g a) r s
      | .error e => (.error e, r, s) := by
  rw [InPlace.run_bind, InPlace.run_read]
  cases f s <;> rfl

private theorem run_write_last (q o : Nat) (value : UInt8) (r₀ : Registers) :
    InPlace.run (write q o value >>= fun _ => pure r) r₀ s =
      match (s.write q o value >>= fun s' => .ok (r, s') : Except Fault (Registers × Store)) with
      | .ok (r', s') => (.ok r', r₀, s')
      | .error e => (.error e, r₀, s) := by
  rw [InPlace.run_bind, InPlace.run_write]
  cases s.write q o value <;> rfl

/-! ## Nothing half-done is seen -/

private theorem run_actInPlace (i : Option Instruction) (r₀ : Registers) :
    InPlace.run (m.actInPlace program r i) r₀ s =
      match m.act program r s i with
      | .ok (r', s') => (.ok r', r₀, s')
      | .error e => (.error e, r₀, s) := by
  match i with
  | some .head0Left =>
    rw [actInPlace, act, run_read_then]
    cases ringPrev r.head0.toNat (s.tapeLength - 1) <;> rfl
  | some .head0Right =>
    rw [actInPlace, act, run_read_then]
    cases ringNext r.head0.toNat (s.tapeLength - 1) <;> rfl
  | some .head1Left =>
    rw [actInPlace, act, run_read_then]
    cases ringPrev r.head1.toNat (s.tapeLength - 1) <;> rfl
  | some .head1Right =>
    rw [actInPlace, act, run_read_then]
    cases ringNext r.head1.toNat (s.tapeLength - 1) <;> rfl
  | some .decrement | some .increment =>
    rw [actInPlace, act, run_read_then]
    cases s.load program r.head0.toNat with
    | error e => rfl
    | ok value => exact run_write_last _ _ _ r₀
  | some .push =>
    rw [actInPlace, act, run_read_then]
    cases m.copyTarget program s with
    | error e => rfl
    | ok target =>
      dsimp only [ok_bind]
      rw [run_read_then]
      cases s.load program r.head0.toNat with
      | error e => rfl
      | ok value => exact run_write_last _ _ _ r₀
  | some .pull =>
    rw [actInPlace, act, run_read_then]
    cases m.copyTarget program s with
    | error e => rfl
    | ok source =>
      dsimp only [ok_bind]
      rw [run_read_then]
      cases s.load source r.head1.toNat with
      | error e => rfl
      | ok value => exact run_write_last _ _ _ r₀
  | some .loopStart | some .loopEnd | none => rfl

/-- Where to go on does not depend on head 1. -/
theorem target_ok_of_lt (hp : program < s.programs) (hip : r.ip.toNat < s.tapeLength)
    (hhead0 : r.head0.toNat < s.tapeLength) (i : Option Instruction) :
    ∃ t, target program r s i = .ok t ∧ ∀ position ∈ t, position < s.tapeLength := by
  have hsame : target program { r with head1 := 0 } s i = target program r s i := by
    match i with
    | none => rfl
    | some i => cases i <;> rfl
  rw [← hsame]
  exact target_ok hp (r := { r with head1 := 0 }) ⟨hip, hhead0, s.tapeLength_pos⟩ i

/-- A program that goes on does so behind a cell of its own tape, wherever its heads are. -/
theorem target_lt {i : Option Instruction} {position : Nat} (hp : program < s.programs)
    (hip : r.ip.toNat < s.tapeLength) (h : target program r s i = .ok (some position)) :
    position < s.tapeLength := by
  have hloop {byte : UInt8} (hload : s.load program r.head0.toNat = .ok byte) :
      position < s.tapeLength := by
    have hhead0 := (s.load_eq_ok_iff.1 hload).1.2
    obtain ⟨t, ht, hbound⟩ := target_ok_of_lt hp hip hhead0 i
    rw [h, Except.ok.injEq] at ht
    exact hbound position ht.symm
  by_cases hstart : i = some .loopStart
  · subst hstart
    obtain ⟨byte, hload, -⟩ := bind_eq_ok_iff.1 h
    exact hloop hload
  by_cases hend : i = some .loopEnd
  · subst hend
    obtain ⟨byte, hload, -⟩ := bind_eq_ok_iff.1 h
    exact hloop hload
  · rw [target_of_ne hstart hend, Except.ok.injEq, Option.some.injEq] at h
    exact h ▸ hip

/-- A step in place ends as the step does, and a fault leaves the registers and all tapes as
they were. -/
theorem run_stepInPlace (m : Machine) (program : Nat) (r : Registers) (s : Store) :
    InPlace.run (m.stepInPlace program) r s =
      match m.step program r s with
      | .ok x => (.ok x.outcome, x.registers, x.store)
      | .error e => (.error e, r, s) := by
  rw [stepInPlace, InPlace.run_bind, InPlace.run_registers, step, execute]
  dsimp only
  rw [run_read_then]
  cases hload : s.load program r.ip.toNat with
  | error e => rfl
  | ok byte =>
    obtain ⟨⟨hp, hip⟩, -⟩ := s.load_eq_ok_iff.1 hload
    dsimp only [ok_bind]
    split
    · rfl
    rw [run_read_then]
    cases htarget : target program r s (Instruction.ofByte? byte) with
    | error e => rfl
    | ok t =>
      cases t with
      | none => rfl
      | some position =>
        dsimp only [ok_bind]
        rw [InPlace.run_bind, run_actInPlace]
        cases hact : m.act program r s (Instruction.ofByte? byte) with
        | error e => rfl
        | ok z =>
          obtain ⟨r', s'⟩ := z
          have hposition : position < s'.tapeLength := by
            rw [(act_sameShape hact).tapeLength_eq]
            exact target_lt hp hip htarget
          obtain ⟨x, hproceed⟩ : ∃ x, m.proceed position r' s' = .ok x :=
            ⟨_, proceed_eq_ok r' hposition⟩
          obtain ⟨rfl, -⟩ := proceed_agree rfl hproceed
          dsimp only [ok_bind, pure_eq_ok]
          rw [run_read_then, hproceed]
          rfl

end Machine
end TapeTorus
