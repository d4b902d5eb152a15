/-!
# Paths

A path is a text of names with slashes between them.
-/

namespace TapeTorus.Path

/-- A path that starts at the root; any other starts at the current directory. -/
def isAbsolute (path : String) : Bool := path.startsWith "/"

/-- The names between the slashes, in order. -/
def names (path : String) : List String := (path.splitOn "/").filter (· ≠ "")

/-- The names that lead elsewhere; `.` stays where it is. -/
def steps (path : String) : List String := (names path).filter (· ≠ ".")

/-- The path that takes the given steps from the root or from the current directory. -/
def ofSteps (absolute : Bool) (steps : List String) : String :=
  (if absolute then "/" else "") ++ String.intercalate "/" steps

/-- The paths one or more steps above a path, the longest first.  The root and the
current directory are not among them. -/
def above (path : String) : List String :=
  let all := steps path
  (List.range' 1 (all.length - 1)).reverse.map fun count =>
    ofSteps (isAbsolute path) (all.take count)

/-- A path that names nothing but the root. -/
def isRoot (path : String) : Bool := isAbsolute path && (steps path).isEmpty

/-- A path and those above it, the longest first; none for the root, which is always
there. -/
def ancestors (path : String) : List String :=
  if path = "" ∨ isRoot path then [] else path :: above path

end TapeTorus.Path
