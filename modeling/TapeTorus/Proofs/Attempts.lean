import Mathlib.Combinatorics.Pigeonhole
import Mathlib.Logic.Function.Iterate
import TapeTorus.Generator

/-!
# Attempts

A number below a bound is drawn by trying one word after the other.  The states of a generator are
finitely many, so that they come again: a drawing that has not ended after as many attempts as
there are states never ends, and to stop it there changes nothing.
-/

namespace TapeTorus.Xoshiro

variable {n : Nat} {zone : UInt64} {g : Xoshiro}

/-- The state after `k` words. -/
def afterWords (g : Xoshiro) (k : Nat) : Xoshiro := (fun g => g.next.2)^[k] g

/-- The words up to the one behind `k` others are refused, but not this one. -/
structure Accepts (n : Nat) (zone : UInt64) (g : Xoshiro) (k : Nat) : Prop where
  accepted : (g.afterWords k).next.1 * .ofNat n ≤ zone
  refused : ∀ j < k, ¬(g.afterWords j).next.1 * .ofNat n ≤ zone

private theorem afterWords_succ (g : Xoshiro) (k : Nat) :
    g.afterWords (k + 1) = g.next.2.afterWords k := Function.iterate_succ_apply _ k g

private theorem drawWithin_succ (attempts : Nat) :
    drawWithin n zone (attempts + 1) g =
      if g.next.1 * .ofNat n ≤ zone then some (scale g.next.1 n, g.next.2)
      else drawWithin n zone attempts g.next.2 := rfl

private theorem drawWithin_eq_none {attempts : Nat}
    (h : ∀ k < attempts, ¬(g.afterWords k).next.1 * .ofNat n ≤ zone) :
    drawWithin n zone attempts g = none := by
  induction attempts generalizing g with
  | zero => rfl
  | succ attempts ih =>
    have hfirst : ¬g.next.1 * .ofNat n ≤ zone := h 0 attempts.succ_pos
    rw [drawWithin_succ, if_neg hfirst]
    apply ih
    intro k hk
    rw [← afterWords_succ]
    exact h (k + 1) (Nat.succ_lt_succ hk)

private theorem drawWithin_eq_some {attempts k : Nat} (h : Accepts n zone g k)
    (hk : k < attempts) :
    drawWithin n zone attempts g =
      some (scale (g.afterWords k).next.1 n, g.afterWords (k + 1)) := by
  induction attempts generalizing g k with
  | zero => cases hk
  | succ attempts ih =>
    rw [drawWithin_succ]
    cases k with
    | zero => exact if_pos h.accepted
    | succ k =>
      have hfirst : ¬g.next.1 * .ofNat n ≤ zone := h.refused 0 k.succ_pos
      have hrest : Accepts n zone g.next.2 k := by
        constructor
        · rw [← afterWords_succ]
          exact h.accepted
        · intro j hj
          rw [← afterWords_succ]
          exact h.refused (j + 1) (Nat.succ_lt_succ hj)
      rw [if_neg hfirst, ih hrest (Nat.lt_of_succ_lt_succ hk), afterWords_succ g k,
        afterWords_succ g (k + 1)]

/-! ## States come again -/

private def index (g : Xoshiro) : Nat :=
  ((g.s0.toNat * 2 ^ 64 + g.s1.toNat) * 2 ^ 64 + g.s2.toNat) * 2 ^ 64 + g.s3.toNat

private theorem index_lt (g : Xoshiro) : g.index < states := by
  have h0 := g.s0.toNat_lt
  have h1 := g.s1.toNat_lt
  have h2 := g.s2.toNat_lt
  have h3 := g.s3.toNat_lt
  unfold index states
  omega

private theorem index_inj {g g' : Xoshiro} (h : g.index = g'.index) : g = g' := by
  have h1 := g.s1.toNat_lt
  have h2 := g.s2.toNat_lt
  have h3 := g.s3.toNat_lt
  have h1' := g'.s1.toNat_lt
  have h2' := g'.s2.toNat_lt
  have h3' := g'.s3.toNat_lt
  unfold index at h
  have hs0 : g.s0 = g'.s0 := UInt64.toNat_inj.1 (by omega)
  have hs1 : g.s1 = g'.s1 := UInt64.toNat_inj.1 (by omega)
  have hs2 : g.s2 = g'.s2 := UInt64.toNat_inj.1 (by omega)
  have hs3 : g.s3 = g'.s3 := UInt64.toNat_inj.1 (by omega)
  cases g
  cases g'
  simp_all

/-- Two of the first states agree. -/
private theorem exists_repeat (g : Xoshiro) :
    ∃ i j, i < j ∧ j ≤ states ∧ g.afterWords i = g.afterWords j := by
  have hcard : (Finset.range states).card < (Finset.range (states + 1)).card := by
    rw [Finset.card_range, Finset.card_range]
    exact Nat.lt_succ_self states
  obtain ⟨i, hi, j, hj, hne, heq⟩ := Finset.exists_ne_map_eq_of_card_lt_of_maps_to hcard
    (f := fun k => (g.afterWords k).index) (fun k _ => Finset.mem_range.2 (index_lt _))
  have hsame := index_inj heq
  rw [Finset.mem_range] at hi hj
  rcases Nat.lt_or_gt_of_ne hne with hlt | hgt
  · exact ⟨i, j, hlt, Nat.le_of_lt_succ hj, hsame⟩
  · exact ⟨j, i, hgt, Nat.le_of_lt_succ hi, hsame.symm⟩

/-- Every state that is ever reached is one of the first. -/
private theorem exists_early (g : Xoshiro) (k : Nat) :
    ∃ j < states, g.afterWords j = g.afterWords k := by
  induction k using Nat.strongRecOn with
  | ind k ih =>
    by_cases hk : k < states
    · exact ⟨k, hk, rfl⟩
    · obtain ⟨i, j, hij, hj, hsame⟩ := exists_repeat g
      obtain ⟨l, hl, hearly⟩ := ih (k - j + i) (by omega)
      refine ⟨l, hl, hearly.trans ?_⟩
      have hsplit : k = k - j + j := by omega
      conv_rhs => rw [hsplit]
      unfold afterWords at hsame ⊢
      rw [Function.iterate_add_apply, Function.iterate_add_apply, hsame]

/-- Drawing ends with the first word that counts, however late it comes, and has no result just if
none ever does. -/
theorem drawWithin_states (n : Nat) (zone : UInt64) (g : Xoshiro) :
    (∀ k, Accepts n zone g k → drawWithin n zone states g =
      some (scale (g.afterWords k).next.1 n, g.afterWords (k + 1))) ∧
    (drawWithin n zone states g = none ↔ ∀ k, ¬Accepts n zone g k) := by
  have hfound : ∀ k, Accepts n zone g k → drawWithin n zone states g =
      some (scale (g.afterWords k).next.1 n, g.afterWords (k + 1)) := by
    intro k hk
    obtain ⟨j, hj, hsame⟩ := exists_early g k
    have hle : k ≤ j := by
      apply Nat.le_of_not_lt
      intro hlt
      apply hk.refused j hlt
      rw [hsame]
      exact hk.accepted
    exact drawWithin_eq_some hk (Nat.lt_of_le_of_lt hle hj)
  refine ⟨hfound, ?_, ?_⟩
  · intro hnone k hk
    rw [hfound k hk] at hnone
    cases hnone
  · intro hnever
    have hrefused : ∀ k, ¬(g.afterWords k).next.1 * .ofNat n ≤ zone := by
      intro k
      induction k using Nat.strongRecOn with
      | ind k ih => exact fun hk => hnever k ⟨hk, ih⟩
    exact drawWithin_eq_none fun k _ => hrefused k

end TapeTorus.Xoshiro
