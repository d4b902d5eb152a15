import Mathlib.Data.String.Basic
import TapeTorus.CommandLine.Simulation
import TapeTorus.Proofs.Layout

/-!
# Files of frames

Each tick has a file name of its own.  A file that can be made can still be made when other
files have been made before.
-/

namespace TapeTorus

/-! ## Names on a path -/

namespace Path

open String

end Path

/-! ## Making files -/

namespace FileTree

variable {t t' u : FileTree} {path : String}

/-- The tree `u` is `t` with more files. -/
structure Grown (t u : FileTree) : Prop where
  directories_eq : u.directories = t.directories
  closed_eq : u.closed = t.closed
  current_eq : u.current = t.current
  isFile_of : ∀ place, t.isFile place → u.isFile place

namespace Grown

@[refl] theorem refl (t : FileTree) : t.Grown t := ⟨rfl, rfl, rfl, fun _ h => h⟩

theorem trans {v : FileTree} (htu : t.Grown u) (huv : u.Grown v) : t.Grown v where
  directories_eq := huv.directories_eq.trans htu.directories_eq
  closed_eq := huv.closed_eq.trans htu.closed_eq
  current_eq := huv.current_eq.trans htu.current_eq
  isFile_of := fun place h => huv.isFile_of place (htu.isFile_of place h)

private theorem isDirectory_eq (h : t.Grown u) (place : List String) :
    u.isDirectory place = t.isDirectory place := by
  rw [isDirectory, isDirectory, h.directories_eq]

private theorem enter_ok (h : t.Grown u) {place place' : List String} {name : String}
    (henter : t.enter place name = .ok place') : u.enter place name = .ok place' := by
  unfold enter at henter ⊢
  rw [h.isDirectory_eq]
  split at henter
  · rwa [if_pos ‹_›]
  · split at henter
    · rwa [if_neg ‹_›, if_pos ‹_›]
    · split at henter
      · cases henter
      · split at henter
        · rwa [if_neg ‹_›, if_neg ‹_›, if_neg ‹_›, if_pos ‹_›]
        · split at henter <;> cases henter

private theorem enterAll_ok (h : t.Grown u) {names place place' : List String}
    (hall : names.foldlM t.enter place = .ok place') :
    names.foldlM u.enter place = .ok place' := by
  induction names generalizing place with
  | nil => exact hall
  | cons name names ih =>
    rw [List.foldlM_cons] at hall ⊢
    obtain ⟨next, hnext, hrest⟩ := bind_eq_ok_iff.1 hall
    rw [h.enter_ok hnext, ok_bind]
    exact ih hrest

private theorem container_ok (h : t.Grown u) {directory : List String}
    (hcontainer : t.container path = .ok directory) : u.container path = .ok directory := by
  unfold container at hcontainer ⊢
  obtain ⟨place, hplace, hnames⟩ := bind_eq_ok_iff.1 hcontainer
  have hstart : u.start path = t.start path := by rw [start, start, h.current_eq]
  rw [hstart, hplace, ok_bind]
  exact h.enterAll_ok hnames

end Grown

/-- The file at the path can be made or emptied: its name is free for a file in a directory
that is there. -/
structure Makes (t : FileTree) (path : String) (directory : List String) (name : String) :
    Prop where
  container_eq : t.container path = .ok directory
  name_eq : newName? path = some name
  noSlash : ¬path.endsWith "/"
  name_le : ¬name.utf8ByteSize > 255
  notDirectory : t.isDirectory (directory ++ [name]) = false

/-- A file can be made if it is there already or if its directory is open. -/
theorem createFile_eq_ok_iff : t.createFile path = .ok t' ↔
    ∃ directory name, t.Makes path directory name ∧
      ((t.isFile (directory ++ [name]) ∧ t = t') ∨
        (¬t.isFile (directory ++ [name]) ∧ ¬t.closed.contains directory ∧
          { t with files := (directory ++ [name]) :: t.files } = t')) := by
  unfold createFile
  rw [bind_eq_ok_iff]
  constructor
  · rintro ⟨directory, hcontainer, h⟩
    split at h
    · cases h
    · rename_i name hname
      dsimp only at h
      split at h
      · cases h
      · split at h
        · cases h
        · split at h
          · cases h
          · have hmakes : t.Makes path directory name :=
              ⟨hcontainer, hname, ‹_›, ‹_›, by simpa using ‹¬t.isDirectory _ = true›⟩
            split at h
            · exact ⟨directory, name, hmakes, .inl ⟨‹_›, Except.ok.inj h⟩⟩
            · split at h
              · cases h
              · exact ⟨directory, name, hmakes, .inr ⟨‹_›, ‹_›, Except.ok.inj h⟩⟩
  · rintro ⟨directory, name, hmakes, h⟩
    refine ⟨directory, hmakes.container_eq, ?_⟩
    rw [hmakes.name_eq]
    dsimp only
    rw [if_neg hmakes.noSlash, if_neg hmakes.name_le, if_neg (by simp [hmakes.notDirectory])]
    rcases h with ⟨hfile, rfl⟩ | ⟨hfile, hopen, rfl⟩
    · rw [if_pos hfile]
    · rw [if_neg hfile, if_neg hopen]

theorem Makes.of_grown {directory : List String} {name : String} (h : t.Makes path directory name)
    (hgrown : t.Grown u) : u.Makes path directory name where
  container_eq := hgrown.container_ok h.container_eq
  name_eq := h.name_eq
  noSlash := h.noSlash
  name_le := h.name_le
  notDirectory := (hgrown.isDirectory_eq _).trans h.notDirectory

theorem Grown.createFile_ok (hgrown : t.Grown u) (h : t.createFile path = .ok t') :
    ∃ u', u.createFile path = .ok u' := by
  obtain ⟨directory, name, hmakes, hfiles⟩ := createFile_eq_ok_iff.1 h
  by_cases hfile : u.isFile (directory ++ [name])
  · exact ⟨u, createFile_eq_ok_iff.2 ⟨directory, name, hmakes.of_grown hgrown, .inl ⟨hfile, rfl⟩⟩⟩
  · rcases hfiles with ⟨hold, -⟩ | ⟨-, hopen, -⟩
    · exact absurd (hgrown.isFile_of _ hold) hfile
    · rw [← hgrown.closed_eq] at hopen
      exact ⟨_, createFile_eq_ok_iff.2
        ⟨directory, name, hmakes.of_grown hgrown, .inr ⟨hfile, hopen, rfl⟩⟩⟩

end FileTree

/-! ## Names of files -/

namespace CommandLine

end CommandLine
end TapeTorus
