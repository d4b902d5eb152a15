import Mathlib.Tactic.Choose
import TapeTorus.Proofs.Lines
import TapeTorus.Proofs.Observation
import TapeTorus.Proofs.Reseeding
import TapeTorus.Proofs.SquareTapes
import TapeTorus.Proofs.StoredImages

/-!
# Observers

Commands that differ only in what they observe run the same world.  Here a whole command is
followed, from its arguments to its exit code: what it needs to come to its end, and what it
has then written.
-/

namespace TapeTorus

namespace CommandLine

variable {codecs : Codecs} {s : Session} {o : Options} {w : World} {c : Config} {memory : Nat}
  {arguments : List String} {tree : FileTree}

/-! ## The whole command -/

/-- The directory for the frames, if there is to be one, has been made in the tree. -/
structure Options.Opens (o : Options) (tree tree' : FileTree) : Prop where
  made : ∀ directory, o.frames = some directory →
    tree.makeDirectories directory = (.ok (), tree')
  unchanged : o.frames = none → tree' = tree

private theorem outcome_accepted (hoptions : Options.ofArguments arguments = .ok o) :
    outcome (orStop .refused (Options.ofArguments arguments) >>= fun o =>
        perform (Session.host codecs memory) o) s =
      outcome (perform (Session.host codecs memory) o) s := by
  rw [outcome_bind, hoptions]
  rfl

theorem execute_ok (hoptions : Options.ofArguments arguments = .ok o)
    {s' : Session} (h : outcome (perform (Session.host codecs memory) o) s = (.ok (), s')) :
    (execute (Session.host codecs memory) arguments).run s = (some 0, s') := by
  rw [← outcome_accepted hoptions, outcome] at h
  unfold execute
  dsimp only
  rw [StateT.run_bind, h]
  rfl

/-- The directory for the frames can be made, and then every file in it that is asked for. -/
def Options.Writable (o : Options) (tree : FileTree) : Prop :=
  ∃ tree', o.Opens tree tree' ∧ ∀ directory, o.frames = some directory →
    ∀ tick ∈ o.drawn (List.range (o.ticks + 1)), CanSave tree' directory tick

/-- A compressor that gets nowhere with a few bytes, and stored images. -/
def plain : Codecs := ⟨fun data => data.size + 4, Png.encoder⟩

end CommandLine
end TapeTorus
