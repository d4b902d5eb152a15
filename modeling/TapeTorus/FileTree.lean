import TapeTorus.Error
import TapeTorus.Path

/-!
# File trees

What making a file or a directory at a path does in a given tree of directories
and files.
-/

namespace TapeTorus

/-- The directories and the other files that exist, by the names on the way from
the root.  Relative paths start at `current`. -/
structure FileTree where
  directories : List (List String)
  files : List (List String)
  /-- Directories in which nothing can be made. -/
  closed : List (List String)
  current : List String

namespace FileTree

def isDirectory (t : FileTree) (place : List String) : Bool :=
  place.isEmpty || t.directories.contains place

def isFile (t : FileTree) (place : List String) : Bool := t.files.contains place

/-! ## Finding places -/

/-- Where a name leads from a directory.  It must lead to a directory. -/
def enter (t : FileTree) (place : List String) (name : String) : Except FileError (List String) :=
  if name = "." then .ok place
  else if name = ".." then .ok place.dropLast
  else if name.utf8ByteSize > 255 then .error .nameTooLong
  else if t.isDirectory (place ++ [name]) then .ok (place ++ [name])
  else if t.isFile (place ++ [name]) then .error .notDirectory
  else .error .notFound

/-- The directory where a path starts.  Paths have a limited length. -/
def start (t : FileTree) (path : String) : Except FileError (List String) :=
  if path.contains '\x00' then .error .nulInName
  else if path = "" then .error .notFound
  else if path.utf8ByteSize > 4095 then .error .nameTooLong
  else .ok (if Path.isAbsolute path then [] else t.current)

/-- The directory that a path leads to before its last name. -/
def container (t : FileTree) (path : String) : Except FileError (List String) := do
  let place ← t.start path
  (Path.names path).dropLast.foldlM t.enter place

/-- The last name of a path if something new can bear it; `.` and `..` are always there. -/
def newName? (path : String) : Option String :=
  (Path.names path).getLast?.filter fun name => name ≠ "." ∧ name ≠ ".."

def leadsToDirectory (t : FileTree) (path : String) : Bool :=
  (do (Path.names path).foldlM t.enter (← t.start path)).isOk

/-! ## Making files and directories -/

/-- Makes or empties the file at a path. -/
def createFile (t : FileTree) (path : String) : Except FileError FileTree := do
  let directory ← t.container path
  match newName? path with
  | none => .error .isDirectory
  | some name =>
    let place := directory ++ [name]
    if path.endsWith "/" then .error .isDirectory
    else if name.utf8ByteSize > 255 then .error .nameTooLong
    else if t.isDirectory place then .error .isDirectory
    else if t.isFile place then .ok t
    else if t.closed.contains directory then .error .notFound
    else .ok { t with files := place :: t.files }

/-- Makes the directory at a path, where nothing may be yet. -/
def makeDirectory (t : FileTree) (path : String) : Except FileError FileTree := do
  let directory ← t.container path
  match newName? path with
  | none => .error .alreadyExists
  | some name =>
    let place := directory ++ [name]
    if name.utf8ByteSize > 255 then .error .nameTooLong
    else if t.isDirectory place ∨ t.isFile place then .error .alreadyExists
    else if t.closed.contains directory then .error .notFound
    else .ok { t with directories := place :: t.directories }

def ensureDirectory (t : FileTree) (path : String) : Except FileError FileTree :=
  match t.makeDirectory path with
  | .error .alreadyExists => if t.leadsToDirectory path then .ok t else .error .alreadyExists
  | result => result

/-- Makes the first of some paths, after the rest of them if something above it is
missing.  What has been made before a failure stays. -/
def makeAlong (t : FileTree) : List String → Except FileError Unit × FileTree
  | [] => (.ok (), t)
  | path :: above =>
    match t.ensureDirectory path with
    | .ok t => (.ok (), t)
    | .error .notFound =>
      match t.makeAlong above with
      | (.ok (), t) =>
        match t.ensureDirectory path with
        | .ok t => (.ok (), t)
        | .error e => (.error e, t)
      | failure => failure
    | .error e => (.error e, t)

/-- Makes the directory at a path, and those above it as far as they are missing. -/
def makeDirectories (t : FileTree) (path : String) : Except FileError Unit × FileTree :=
  t.makeAlong (Path.ancestors path)

end FileTree
end TapeTorus
