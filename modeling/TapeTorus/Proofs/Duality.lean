import TapeTorus.Proofs.InstructionTable
import TapeTorus.Proofs.Paths

/-!
# Pushing and pulling

A cell can be carried to a neighbour by either of the two programs.  The one that has it
pushes it, with head 0 on the cell and head 1 on the place for it; the other one pulls it,
with its heads the other way round.  The tapes are the same afterwards, and the same again
after the other program has carried the cell, too (`Machine.push_pull_dual`).
-/

namespace TapeTorus

namespace Store

variable {s : Store} {p a q b : Nat}

/-- The tapes with the byte of cell `a` of `p` in cell `b` of `q`. -/
def copied (s : Store) (p a q b : Nat) : Store := s.update q b (s.cell p a)

private theorem copied_sameShape (s : Store) (p a q b : Nat) : (s.copied p a q b).SameShape s :=
  s.update_sameShape q b (s.cell p a)

private theorem cell_copied {k o : Nat} (hq : q < s.programs) (hb : b < s.tapeLength)
    (ho : o < s.tapeLength) :
    (s.copied p a q b).cell k o = if k = q ∧ o = b then s.cell p a else s.cell k o :=
  s.cell_update _ hq hb ho

/-- A copy leaves the byte where it was, so that it can be copied again, to no effect. -/
theorem copied_copied (hq : q < s.programs) (ha : a < s.tapeLength) (hb : b < s.tapeLength) :
    (s.copied p a q b).copied p a q b = s.copied p a q b := by
  have hkept : (s.copied p a q b).cell p a = s.cell p a := by
    rw [cell_copied hq hb ha, ite_self]
  apply ((s.copied p a q b).copied_sameShape p a q b).eq_of_cells
  rw [copied, hkept]
  exact Array.setIfInBounds_setIfInBounds ..

/-- The direction that the last cell of a tape selects. -/
def selection (s : Store) (program : Nat) : Direction :=
  .ofSelector (s.cell program (s.tapeLength - 1)).toNat

private theorem selection_congr {s' : Store} (hshape : s'.SameShape s)
    (h : s'.cell p (s.tapeLength - 1) = s.cell p (s.tapeLength - 1)) :
    s'.selection p = s.selection p := by
  rw [selection, selection, hshape.tapeLength_eq, h]

end Store

private theorem Direction.ne_opposite (d : Direction) : d ≠ d.opposite := by cases d <;> decide

namespace Machine

variable {m : Machine} {s s' : Store} {p a q b program : Nat} {r : Registers}

/-- The instruction of `program` carries cell `a` of `p` to cell `b` of `q`. -/
inductive Carries (m : Machine) (s : Store) (p a q b : Nat) : Nat → Registers → Prop
  /-- The program with the cell pushes it. -/
  | push {r : Registers} (hr : r.Within s.tapeLength) (hsymbol : s.symbol p r.ip.toNat = '.')
      (hselects : m.torus.neighbor p (s.selection p) = .ok q)
      (hhead0 : r.head0.toNat = a) (hhead1 : r.head1.toNat = b) : Carries m s p a q b p r
  /-- The program with the place pulls it. -/
  | pull {r : Registers} (hr : r.Within s.tapeLength) (hsymbol : s.symbol q r.ip.toNat = ',')
      (hselects : m.torus.neighbor q (s.selection q) = .ok p)
      (hhead0 : r.head0.toNat = b) (hhead1 : r.head1.toNat = a) : Carries m s p a q b q r

namespace Carries

theorem within (h : m.Carries s p a q b program r) : r.Within s.tapeLength := by
  cases h <;> assumption

theorem step_eq (h : m.Carries s p a q b program r) (hp : p < s.programs)
    (hq : q < s.programs) :
    m.step program r s = m.proceed r.ip.toNat r (s.copied p a q b) := by
  cases h with
  | push hr hsymbol hselects hhead0 hhead1 =>
    subst hhead0 hhead1
    refine (executes_of_symbol (i := .push) hp hr.1 hsymbol).step_of_act
      (target_of_ne (by simp) (by simp)) ?_
    rw [act, copyTarget_eq_neighbor hp, ← Store.selection, hselects, ok_bind,
      s.load_eq_ok hp hr.2.1, ok_bind, s.write_eq_ok _ hq hr.2.2]
    rfl
  | pull hr hsymbol hselects hhead0 hhead1 =>
    subst hhead0 hhead1
    refine (executes_of_symbol (i := .pull) hq hr.1 hsymbol).step_of_act
      (target_of_ne (by simp) (by simp)) ?_
    rw [act, copyTarget_eq_neighbor hq, ← Store.selection, hselects, ok_bind,
      s.load_eq_ok hp hr.2.2, ok_bind, s.write_eq_ok _ hq hr.2.1]
    rfl

theorem step_ok (h : m.Carries s p a q b program r) (hp : p < s.programs)
    (hq : q < s.programs) :
    ∃ x, m.step program r s = .ok x ∧ x.store = s.copied p a q b := by
  have hip : r.ip.toNat < (s.copied p a q b).tapeLength := h.within.1
  rw [h.step_eq hp hq, proceed_eq_ok r hip]
  refine ⟨_, rfl, ?_⟩
  split <;> rfl

private theorem of_unchanged (h : m.Carries s p a q b program r) (hshape : s'.SameShape s)
    (hcode : s'.cell program r.ip.toNat = s.cell program r.ip.toNat)
    (hselector : s'.cell program (s.tapeLength - 1) = s.cell program (s.tapeLength - 1)) :
    m.Carries s' p a q b program r := by
  have hselection := Store.selection_congr hshape hselector
  have hlength := hshape.tapeLength_eq
  have hsame : s'.symbol program r.ip.toNat = s.symbol program r.ip.toNat :=
    congrArg Char.ofUInt8 hcode
  cases h with
  | push hr hsymbol hselects hhead0 hhead1 =>
    exact .push (hlength ▸ hr) (hsame.trans hsymbol) (hselection ▸ hselects) hhead0 hhead1
  | pull hr hsymbol hselects hhead0 hhead1 =>
    exact .pull (hlength ▸ hr) (hsame.trans hsymbol) (hselection ▸ hselects) hhead0 hhead1

/-- A program that carries a cell to where it has been carried already does as it would have
done before. -/
theorem step_copied (h : m.Carries s p a q b program r) (hp : p < s.programs)
    (hq : q < s.programs) (ha : a < s.tapeLength) (hb : b < s.tapeLength)
    (hcode : (s.copied p a q b).cell program r.ip.toNat = s.cell program r.ip.toNat)
    (hselector : (s.copied p a q b).cell program (s.tapeLength - 1) =
      s.cell program (s.tapeLength - 1)) :
    m.step program r (s.copied p a q b) = m.step program r s := by
  have hagain := h.of_unchanged (s.copied_sameShape p a q b) hcode hselector
  rw [hagain.step_eq hp hq, h.step_eq hp hq, Store.copied_copied hq ha hb]

end Carries

/-- A program pushes a cell to its neighbour, and the neighbour pulls the cell from it, with the
heads the other way round.  On the same tapes both do the same: the place gets the byte of the
cell, and no other cell changes.  Unless the byte takes the place of the `,` or of the selector
of the neighbour, the second of the two, in either order, steps as if it were the first. -/
theorem push_pull_dual (m : Machine) (s : Store) (hprograms : s.programs = m.torus.size)
    {p q : Nat} (hp : p < m.torus.size) {d : Direction} (hneighbor : m.torus.neighbor p d = .ok q)
    {r r' : Registers} (hr : r.Within s.tapeLength) (hr' : r'.Within s.tapeLength)
    (hhead0 : r'.head0 = r.head1) (hhead1 : r'.head1 = r.head0)
    (hpush : s.symbol p r.ip.toNat = '.') (hpull : s.symbol q r'.ip.toNat = ',')
    (hselects : s.selection p = d) (hselects' : s.selection q = d.opposite) :
    p ≠ q ∧ ∃ x y, m.step p r s = .ok x ∧ m.step q r' s = .ok y ∧ x.store = y.store ∧
      x.store.SameShape s ∧
      (∀ k, ∀ o < s.tapeLength, x.store.cell k o =
        if k = q ∧ o = r.head1.toNat then s.cell p r.head0.toNat else s.cell k o) ∧
      (x.store.cell q r'.ip.toNat = s.cell q r'.ip.toNat →
        x.store.cell q (s.tapeLength - 1) = s.cell q (s.tapeLength - 1) →
        m.step q r' x.store = .ok y ∧ m.step p r y.store = .ok x) := by
  have hne : p ≠ q := by
    rintro rfl
    exact d.ne_opposite (hselects.symm.trans hselects')
  have hq : q < s.programs := hprograms ▸ m.torus.neighbor_lt hp hneighbor
  have hback := m.torus.neighbor_opposite hp hneighbor
  replace hp : p < s.programs := hprograms ▸ hp
  have hpushes : m.Carries s p r.head0.toNat q r.head1.toNat p r :=
    .push hr hpush (hselects ▸ hneighbor) rfl rfl
  have hpulls : m.Carries s p r.head0.toNat q r.head1.toNat q r' :=
    .pull hr' hpull (hselects' ▸ hback) (by rw [hhead0]) (by rw [hhead1])
  obtain ⟨x, hx, hpushed⟩ := hpushes.step_ok hp hq
  obtain ⟨y, hy, hpulled⟩ := hpulls.step_ok hp hq
  refine ⟨hne, x, y, hx, hy, hpushed.trans hpulled.symm, ?_⟩
  rw [hpulled, hpushed]
  refine ⟨s.copied_sameShape .., fun k o ho => Store.cell_copied hq hr.2.2 ho,
    fun hcode hselector => ⟨?_, ?_⟩⟩
  · rw [hpulls.step_copied hp hq hr.2.1 hr.2.2 hcode hselector, hy]
  · -- The copy is on the other tape, so that the push still finds its own as it was.
    have hown {o : Nat} (ho : o < s.tapeLength) :
        (s.copied p r.head0.toNat q r.head1.toNat).cell p o = s.cell p o := by
      rw [Store.cell_copied hq hr.2.2 ho, if_neg fun h => hne h.1]
    rw [hpushes.step_copied hp hq hr.2.1 hr.2.2 (hown hr.1)
      (hown (Nat.sub_lt s.tapeLength_pos Nat.one_pos)), hx]

/-- The first program pushes its last cell to the middle of the second tape, or the second one
pulls it from there, or both do. -/
theorem push_pull_dual_sideBySide :
    ∃ x y, sideBySide.step 0 ⟨0, 2, 1⟩ (.couple 46 7 4 44 9 1) = .ok x ∧
      sideBySide.step 1 ⟨0, 1, 2⟩ (.couple 46 7 4 44 9 1) = .ok y ∧ x.store = y.store ∧
      x.store.cell 1 1 = 4 ∧ x.store.cell 1 2 = 1 ∧
      sideBySide.step 1 ⟨0, 1, 2⟩ x.store = .ok y ∧
      sideBySide.step 0 ⟨0, 2, 1⟩ y.store = .ok x := by
  obtain ⟨-, x, y, hx, hy, hstore, -, hcell, hagain⟩ :=
    push_pull_dual sideBySide (.couple 46 7 4 44 9 1) rfl (p := 0) (q := 1) (d := .east)
      (by decide) rfl (show Registers.Within ⟨0, 2, 1⟩ 3 by decide)
      (show Registers.Within ⟨0, 1, 2⟩ 3 by decide) rfl rfl rfl rfl rfl rfl
  have hfirst : x.store.cell 1 0 = 44 := hcell 1 0 (by decide)
  have hmiddle : x.store.cell 1 1 = 4 := hcell 1 1 (by decide)
  have hlast : x.store.cell 1 2 = 1 := hcell 1 2 (by decide)
  obtain ⟨hpulled, hpushed⟩ := hagain hfirst hlast
  exact ⟨x, y, hx, hy, hstore, hmiddle, hlast, hpulled, hpushed⟩

end Machine
end TapeTorus
