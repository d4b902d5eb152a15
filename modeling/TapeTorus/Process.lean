import TapeTorus.CommandLine.Simulation

/-!
# Processes

Carries out a command on the streams and files of the running process.
-/

namespace TapeTorus

/-- The cause of a failed access to a file. -/
def FileError.ofAccess : IO.Error → FileError
  | .noFileOrDirectory .. => .notFound
  | .alreadyExists .. => .alreadyExists
  | .inappropriateType _ 20 _ => .notDirectory
  | .inappropriateType _ 21 _ => .isDirectory
  | .invalidArgument _ 36 _ => .nameTooLong
  | e => .other (toString e)

/-- Tells whether an access succeeded. -/
def attempt (access : IO Unit) : IO (Except FileError Unit) := do
  try
    access
    return .ok ()
  catch e => return .error (.ofAccess e)

def isDirectory (path : String) : IO Bool := do
  try (← IO.FS.realPath path).isDir
  catch _ => return false

/-- Makes a directory that may already exist. -/
def makeOne (path : String) : IO Unit := do
  try IO.FS.createDir path
  catch e => unless ← isDirectory path do throw e

/-- Makes the first of some directories, after the rest of them if something above it is
missing. -/
def makeAlong : List String → IO Unit
  | [] => return ()
  | path :: above => do
    try makeOne path
    catch
      | .noFileOrDirectory .. =>
        makeAlong above
        makeOne path
      | e => throw e

/-- The streams and files of the running process. -/
def processHost (codecs : Codecs) : Host IO where
  toCodecs := codecs
  line text := IO.println text
  status text := IO.eprint text
  clock := IO.monoNanosNow
  memory := 1 <<< 34
  makeDirectories path := attempt (makeAlong (Path.ancestors path))
  createFile path := attempt (IO.FS.writeFile path "")
  fillFile path bytes := attempt (IO.FS.writeBinFile path ⟨bytes⟩)

/-- Carries out a command and gives its exit code, that of an abort if it is cut off. -/
def runProcess (codecs : Codecs) (arguments : List String) : IO UInt32 := do
  let code ← CommandLine.execute (processHost codecs) arguments
  return (code.getD 134).toUInt32

end TapeTorus
