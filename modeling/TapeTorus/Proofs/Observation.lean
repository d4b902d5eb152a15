import TapeTorus.Proofs.Encoders
import TapeTorus.Proofs.History
import TapeTorus.Proofs.SessionOutcome

/-!
# Observation

Metrics, frames and listings only look at the world.  What a command prints and draws for a
tick is a function of the world after that many ticks, and this world does not depend on
which ticks are reported or drawn.
-/

namespace TapeTorus

namespace CommandLine

variable {codecs : Codecs} {s : Session} {o : Options} {w : World} {memory tick : Nat}
  {directory : String}

/-! ## Frames of a history -/

/-- The file of a frame can be made. -/
def CanSave (tree : FileTree) (directory : String) (tick : Nat) : Prop :=
  ∃ tree', tree.createFile (framePath directory tick) = .ok tree'

theorem CanSave.of_grown {tree tree' : FileTree} (h : CanSave tree directory tick)
    (hgrown : tree.Grown tree') : CanSave tree' directory tick := by
  obtain ⟨_, hcreate⟩ := h
  exact hgrown.createFile_ok hcreate

/-- The ticks that are drawn, out of the given ones. -/
def Options.drawn (o : Options) (ticks : List Nat) : List Nat :=
  ticks.filter fun t => o.frameInterval ∣ t ∨ t = o.ticks

/-- The files of the given ticks and what is in them. -/
def files (frames : Option String) (image : Nat → Array UInt8) (ticks : List Nat) :
    List (String × Array UInt8) :=
  match frames with
  | none => []
  | some directory => ticks.map fun t => (framePath directory t, image t)

/-- Every frame that the options ask for is accepted, and its file can be made. -/
structure Drawable (codecs : Codecs) (o : Options) (w : World) (image : Nat → Array UInt8)
    (tree : FileTree) : Prop where
  accepted : ∀ directory, o.frames = some directory → ∀ tick, ∃ f,
    (w.after tick).frame = .ok f ∧ f.Accepted codecs.encoder ∧
      (f.writeImage codecs.encoder).1 = image tick
  canSave : ∀ directory, o.frames = some directory →
    ∀ tick ∈ o.drawn (List.range (o.ticks + 1)), CanSave tree directory tick

variable {image : Nat → Array UInt8}

theorem Drawable.of_grown {tree tree' : FileTree} (h : Drawable codecs o w image tree)
    (hgrown : tree.Grown tree') : Drawable codecs o w image tree' where
  accepted := h.accepted
  canSave directory hframes tick htick := (h.canSave directory hframes tick htick).of_grown hgrown

end CommandLine
end TapeTorus
