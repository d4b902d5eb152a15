import TapeTorus.Proofs.FrameFiles

/-!
# Outcomes on recorded sessions

What an action of a command writes on a host that records everything.  Actions in a row
write their lines and images one after the other, up to the first that stops.  Of the file
tree, only the files matter that are made on the way: they never get in the way of others.
-/

namespace TapeTorus

namespace CommandLine

/-! ## What a command writes -/

/-- What has been written in `s'` on top of what was written in `s`. -/
structure Extends (s s' : Session) (lines : List String) (images : List (String × Array UInt8)) :
    Prop where
  lines_eq : s'.lines.toList = s.lines.toList ++ lines
  images_eq : s'.images.toList = s.images.toList ++ images
  grown : s.tree.Grown s'.tree

theorem Extends.trans {s s' s'' : Session} {lines lines' : List String}
    {images images' : List (String × Array UInt8)} (h : Extends s s' lines images)
    (h' : Extends s' s'' lines' images') :
    Extends s s'' (lines ++ lines') (images ++ images') where
  lines_eq := by rw [h'.lines_eq, h.lines_eq, List.append_assoc]
  images_eq := by rw [h'.images_eq, h.images_eq, List.append_assoc]
  grown := h.grown.trans h'.grown

variable {ε ε' α β : Type} {s s' : Session} {lines lines' : List String}
  {images images' : List (String × Array UInt8)}

/-- What becomes of an action on a session. -/
def outcome (x : ExceptT ε (StateM Session) α) (s : Session) : Except ε α × Session :=
  x.run.run s

/-- The action ends with the given result, after it has written the lines and the images. -/
def Ends (x : ExceptT ε (StateM Session) α) (s : Session) (result : Except ε α)
    (lines : List String) (images : List (String × Array UInt8)) : Prop :=
  ∃ s', outcome x s = (result, s') ∧ Extends s s' lines images

theorem outcome_bind (x : ExceptT ε (StateM Session) α)
    (f : α → ExceptT ε (StateM Session) β) :
    outcome (x >>= f) s =
      match outcome x s with
      | (.ok a, s') => outcome (f a) s'
      | (.error e, s') => (.error e, s') := by
  unfold outcome
  rw [ExceptT.run_bind, StateT.run_bind]
  generalize StateT.run (ExceptT.run x) s = result
  match result with
  | (.ok a, s') => rfl
  | (.error e, s') => rfl

namespace Ends

variable {x : ExceptT ε (StateM Session) α} {f : α → ExceptT ε (StateM Session) β} {a : α}
  {e : ε} {result : Except ε β}

theorem bind (hx : Ends x s (.ok a) lines images)
    (hf : ∀ s', s.tree.Grown s'.tree → Ends (f a) s' result lines' images') :
    Ends (x >>= f) s result (lines ++ lines') (images ++ images') := by
  obtain ⟨s', hfirst, hwritten⟩ := hx
  obtain ⟨s'', hrest, hwritten'⟩ := hf s' hwritten.grown
  refine ⟨s'', ?_, hwritten.trans hwritten'⟩
  rw [outcome_bind, hfirst]
  exact hrest

theorem run {y : ExceptT ε (StateM Session) α} {result : Except ε α}
    (hy : Ends y s result lines images) :
    Ends (liftM y.run : ExceptT ε' (StateM Session) (Except ε α)) s (.ok result) lines images := by
  obtain ⟨s', hrun, hwritten⟩ := hy
  refine ⟨s', ?_, hwritten⟩
  have hrun' : StateT.run y.run s = (result, s') := hrun
  show (Except.ok (StateT.run y.run s).1, (StateT.run y.run s).2) = _
  rw [hrun']

end Ends

section Host

variable {codecs : Codecs} {memory : Nat} {path : String} {tree : FileTree}

end Host

end CommandLine
end TapeTorus
