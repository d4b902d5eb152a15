import TapeTorus.Frame
import TapeTorus.Proofs.Checkpoint

/-!
# Histories

Ticks never fail on a reachable world, so it has one world after each number of ticks.  They
all have the configuration of the first.
-/

namespace TapeTorus

namespace World

/-- The world after one tick. -/
def next (w : World) : World :=
  match w.tick with
  | .ok (_, w') => w'
  | .error _ => w

/-- The world after a number of ticks. -/
def after (w : World) : Nat → World
  | 0 => w
  | ticks + 1 => (w.after ticks).next

variable {w : World}

theorem tick_next (h : w.Sound) : ∃ stats, w.tick = .ok (stats, w.next) := by
  obtain ⟨stats, w', htick, -⟩ := tick_ok h
  refine ⟨stats, ?_⟩
  rw [next, htick]

theorem Reachable.next (h : w.Reachable) : w.next.Reachable := by
  obtain ⟨stats, htick⟩ := tick_next h.sound
  have hcall : w.perform .tick = .ok (.ticked stats, w.next) := by
    rw [World.perform, htick]
    rfl
  exact h.perform hcall

theorem Reachable.after (h : w.Reachable) (ticks : Nat) : (w.after ticks).Reachable := by
  induction ticks with
  | zero => exact h
  | succ ticks ih => exact ih.next

private theorem after_next (w : World) (ticks : Nat) :
    w.next.after ticks = w.after (ticks + 1) := by
  induction ticks with
  | zero => rfl
  | succ ticks ih => rw [after, ih, ← after]

/-- Ticks in a row lead where single ticks lead. -/
theorem runTicksFrom_after (h : w.Reachable) (ticks : Nat) (stats : TickStats) :
    ∃ stats', runTicksFrom ticks stats w = .ok (stats', w.after ticks) := by
  induction ticks generalizing w stats with
  | zero => exact ⟨stats, rfl⟩
  | succ ticks ih =>
    obtain ⟨more, htick⟩ := tick_next h.sound
    obtain ⟨stats', hrest⟩ := ih h.next (stats.merge more)
    refine ⟨stats', ?_⟩
    rw [runTicksFrom, htick, ok_bind]
    dsimp only
    rw [hrest, after_next]

/-- The frame that shows the world. -/
def frame (w : World) : Except Error Frame :=
  Frame.render w.store.snapshot w.store.tapeLength w.torus.width w.torus.height

end World
end TapeTorus
