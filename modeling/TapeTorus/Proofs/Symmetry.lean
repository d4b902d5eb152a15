import TapeTorus.Proofs.Shift
import TapeTorus.Proofs.Writes

/-!
# No place on the torus is special

A program that moves to another place, together with all the tapes around it, takes
the same steps there: the same outcomes, the same registers, and tapes that have
moved in the same way.  Each part of an instruction is compared with the one at the
other place; only the copy instructions look beyond the own tape, and their
neighbours move with the program.
-/

namespace TapeTorus

/-- What a step leaves behind when every tape has moved. -/
def Stepped.shifted (x : Stepped) (t : Torus) (dx dy : Nat) : Stepped :=
  { x with store := x.store.shifted t dx dy }

/-- What a turn leaves behind when every tape has moved. -/
def Turn.shifted (x : Turn) (t : Torus) (dx dy : Nat) : Turn :=
  { x with store := x.store.shifted t dx dy }

namespace Machine

variable {m : Machine} {s : Store} {program : Nat} {r : Registers} (dx dy : Nat)

/-! ## The parts of an instruction -/

private theorem copyTarget_shifted (hprograms : s.programs = m.torus.size)
    (hp : program < s.programs) :
    m.copyTarget (m.torus.shift dx dy program) (s.shifted m.torus dx dy) =
      (m.copyTarget program s).map (m.torus.shift dx dy) := by
  have hplace : program < m.torus.size := hprograms ▸ hp
  have hlength : (s.shifted m.torus dx dy).tapeLength = s.tapeLength := rfl
  rw [copyTarget, copyTarget, hlength, Store.load_shifted dx dy hprograms hp, map_bind]
  congr 1
  funext selector
  exact m.torus.neighbor_shift dx dy hplace (.ofSelector selector.toNat)

private theorem write_then_shifted (hprograms : s.programs = m.torus.size) {q : Nat}
    (hq : q < s.programs) (o : Nat) (value : UInt8) (r : Registers) :
    ((s.shifted m.torus dx dy).write (m.torus.shift dx dy q) o value >>=
        fun s' => (.ok (r, s') : Except Fault (Registers × Store))) =
      (s.write q o value >>= fun s' => .ok (r, s')).map
        fun z => (z.1, z.2.shifted m.torus dx dy) := by
  rw [Store.write_shifted dx dy hprograms hq, map_bind]
  cases s.write q o value with
  | error fault => rfl
  | ok s' => rfl

private theorem act_shifted (hprograms : s.programs = m.torus.size) (hp : program < s.programs)
    (i : Option Instruction) :
    m.act (m.torus.shift dx dy program) r (s.shifted m.torus dx dy) i =
      (m.act program r s i).map fun z => (z.1, z.2.shifted m.torus dx dy) := by
  have hlength : (s.shifted m.torus dx dy).tapeLength = s.tapeLength := rfl
  have hload := Store.load_shifted dx dy hprograms hp
  have htarget := copyTarget_shifted dx dy hprograms hp
  match i with
  | some .head0Left | some .head0Right | some .head1Left | some .head1Right =>
    rw [act, act, hlength, map_bind]
    rfl
  | some .decrement | some .increment =>
    rw [act, act, hload, map_bind]
    congr 1
    funext value
    exact write_then_shifted dx dy hprograms hp _ _ r
  | some .push =>
    rw [act, act, htarget, map_bind]
    cases hq : m.copyTarget program s with
    | error fault => rfl
    | ok q =>
      obtain ⟨q', hq', hlt⟩ := copyTarget_ok hprograms hp
      obtain rfl : q = q' := Except.ok.inj (hq.symm.trans hq')
      simp only [Except.map, ok_bind]
      rw [hload]
      cases s.load program r.head0.toNat with
      | error fault => rfl
      | ok value => exact write_then_shifted dx dy hprograms hlt _ _ r
  | some .pull =>
    rw [act, act, htarget, map_bind]
    cases hq : m.copyTarget program s with
    | error fault => rfl
    | ok q =>
      obtain ⟨q', hq', hlt⟩ := copyTarget_ok hprograms hp
      obtain rfl : q = q' := Except.ok.inj (hq.symm.trans hq')
      simp only [Except.map, ok_bind]
      rw [Store.load_shifted dx dy hprograms hlt]
      cases s.load q r.head1.toNat with
      | error fault => rfl
      | ok value => exact write_then_shifted dx dy hprograms hp _ _ r
  | some .loopStart | some .loopEnd | none => rfl

private theorem target_shifted (hprograms : s.programs = m.torus.size) (hp : program < s.programs)
    (i : Option Instruction) :
    target (m.torus.shift dx dy program) r (s.shifted m.torus dx dy) i =
      target program r s i := by
  have hlength : (s.shifted m.torus dx dy).tapeLength = s.tapeLength := rfl
  have hload := Store.load_shifted dx dy hprograms hp
  simp only [target, Store.closingOf, Store.openingOf, hload, hlength]

private theorem execute_shifted (hprograms : s.programs = m.torus.size)
    (hp : program < s.programs) :
    m.execute (m.torus.shift dx dy program) r (s.shifted m.torus dx dy) =
      (m.execute program r s).map
        (Option.map fun z => (z.1, z.2.1, z.2.2.shifted m.torus dx dy)) := by
  rw [execute, execute, Store.load_shifted dx dy hprograms hp, map_bind]
  congr 1
  funext byte
  split
  · rfl
  rw [target_shifted dx dy hprograms hp, map_bind]
  congr 1
  funext t
  cases t with
  | none => rfl
  | some position =>
    dsimp only
    rw [act_shifted dx dy hprograms hp]
    cases m.act program r s (Instruction.ofByte? byte) with
    | error fault => rfl
    | ok z => rfl

private theorem proceed_shifted (t : Torus) (position : Nat) (r : Registers) (s : Store) :
    m.proceed position r (s.shifted t dx dy) =
      (m.proceed position r s).map (·.shifted t dx dy) := by
  have hlength : (s.shifted t dx dy).tapeLength = s.tapeLength := rfl
  rw [proceed, proceed, hlength, map_bind]
  congr 1
  funext next
  split
  · rfl
  · rfl

/-! ## Steps and runs -/

private theorem step_shifted (hprograms : s.programs = m.torus.size) (hp : program < s.programs) :
    m.step (m.torus.shift dx dy program) r (s.shifted m.torus dx dy) =
      (m.step program r s).map (·.shifted m.torus dx dy) := by
  rw [step, step, execute_shifted dx dy hprograms hp, map_bind]
  cases m.execute program r s with
  | error fault => rfl
  | ok e =>
    cases e with
    | none => rfl
    | some z => exact proceed_shifted dx dy m.torus z.1 z.2.1 z.2.2

private theorem runFrom_shifted (hprograms : s.programs = m.torus.size) (hp : program < s.programs)
    (budget done : Nat) :
    m.runFrom (m.torus.shift dx dy program) budget done r (s.shifted m.torus dx dy) =
      (m.runFrom program budget done r s).map (·.shifted m.torus dx dy) := by
  induction budget generalizing done r s with
  | zero => rfl
  | succ budget ih =>
    rw [runFrom, runFrom, step_shifted dx dy hprograms hp, map_bind]
    cases hstep : m.step program r s with
    | error fault => rfl
    | ok x =>
      obtain ⟨outcome, r', s'⟩ := x
      have hshape : s'.SameShape s := step_sameShape hstep
      cases outcome with
      | halted => rfl
      | running =>
        rw [← hshape.programs_eq] at hprograms hp
        exact ih hprograms hp (done + 1)

/-- Move every tape of a store by the same shift of the torus, and with it the program
that takes a step or a run.  Then it succeeds as before, with the same outcome or
report and the same registers, and the tapes that it leaves have moved, too. -/
theorem shift_invariant (m : Machine) (s : Store) (hprograms : s.programs = m.torus.size)
    (dx dy : Nat) :
    (∀ x < m.torus.width, ∀ y < m.torus.height, ∃ p, m.torus.index x y = .ok p ∧
      m.torus.index ((x + dx) % m.torus.width) ((y + dy) % m.torus.height) =
        .ok (m.torus.shift dx dy p)) ∧
    ((s.shifted m.torus dx dy).SameShape s ∧ ∀ p < s.programs, ∀ o < s.tapeLength,
      (s.shifted m.torus dx dy).cell (m.torus.shift dx dy p) o = s.cell p o) ∧
    ∀ p < s.programs,
      (∀ r, r.Within s.tapeLength → ∃ x, m.step p r s = .ok x ∧
        m.step (m.torus.shift dx dy p) r (s.shifted m.torus dx dy) =
          .ok ⟨x.outcome, x.registers, x.store.shifted m.torus dx dy⟩) ∧
      ∀ limit, ∃ t, m.runProgram p limit s = .ok t ∧
        m.runProgram (m.torus.shift dx dy p) limit (s.shifted m.torus dx dy) =
          .ok ⟨t.stats, t.registers, t.store.shifted m.torus dx dy⟩ := by
  refine ⟨fun x hx y hy => m.torus.index_shift hx hy dx dy,
    ⟨s.shifted_sameShape dx dy m.torus, fun p hp o ho => ?_⟩, fun p hp => ⟨?_, ?_⟩⟩
  · exact Store.cell_shifted dx dy hprograms hp ho
  · intro r hr
    obtain ⟨x, hstep⟩ := exists_step hprograms hp hr
    refine ⟨x, hstep, ?_⟩
    rw [step_shifted dx dy hprograms hp, hstep]
    rfl
  · intro limit
    have hstart := Registers.within_start s.tapeLength_pos
    obtain ⟨t, hrun⟩ := exists_runFrom hprograms hp hstart limit 0
    refine ⟨t, hrun, ?_⟩
    rw [runProgram, runFrom_shifted dx dy hprograms hp, hrun]
    rfl

/-- Ten programs in two rows, of which the last one copies to its eastern neighbour
across the edge. -/
def twoRows : Machine := ⟨⟨5, 2, by decide, Nat.two_pos, by decide⟩, Exec.runToCompletion⟩

def copyAtEdge : Store :=
  ⟨2, 10, #[1, 0, 2, 0, 3, 0, 4, 0, 5, 0, 6, 0, 7, 0, 8, 0, 9, 0, 46, 4], Nat.two_pos,
    by decide, rfl, by decide⟩

/-- Moved by two columns and a row, the program stands in the middle of the first row,
and its neighbour is no longer across the edge. -/
theorem shift_invariant_twoRows :
    ∃ (x : Stepped) (t : Turn), twoRows.torus.shift 2 1 9 = 1 ∧
      (copyAtEdge.shifted twoRows.torus 2 1).cells =
        #[9, 0, 46, 4, 6, 0, 7, 0, 8, 0, 4, 0, 5, 0, 1, 0, 2, 0, 3, 0] ∧
      twoRows.step 9 ⟨0, 0, 1⟩ copyAtEdge = .ok x ∧ x.store.cell 5 1 = 46 ∧
      twoRows.step 1 ⟨0, 0, 1⟩ (copyAtEdge.shifted twoRows.torus 2 1) =
        .ok ⟨x.outcome, x.registers, x.store.shifted twoRows.torus 2 1⟩ ∧
      twoRows.runProgram 1 9 (copyAtEdge.shifted twoRows.torus 2 1) =
        .ok ⟨t.stats, t.registers, t.store.shifted twoRows.torus 2 1⟩ := by
  obtain ⟨-, -, hmoved⟩ := shift_invariant twoRows copyAtEdge rfl 2 1
  obtain ⟨hstep, hrun⟩ := hmoved 9 (by decide)
  obtain ⟨x, hx, hx'⟩ := hstep ⟨0, 0, 1⟩ (by decide)
  obtain ⟨t, -, ht⟩ := hrun 9
  have hcell : (twoRows.step 9 ⟨0, 0, 1⟩ copyAtEdge).map (·.store.cell 5 1) = .ok 46 := rfl
  rw [hx] at hcell
  exact ⟨x, t, rfl, rfl, hx, Except.ok.inj hcell, hx', ht⟩

end Machine
end TapeTorus
