import TapeTorus.FileTree
import TapeTorus.ImageEncoder

/-!
# Hosts

What a command needs from its surroundings: a compressor, an image encoder, two text streams, a
clock, memory and a place for files.  A `Session` is a host that keeps everything as data.
-/

namespace TapeTorus

/-- What a command leaves to others: a compressor, of which only the sizes matter, and an encoder
for images. -/
structure Codecs where
  compressedSize : Array UInt8 → Nat
  encoder : ImageEncoder

structure Host (m : Type → Type) extends Codecs where
  /-- Writes a line to standard output. -/
  line : String → m Unit
  /-- Writes text to standard error. -/
  status : String → m Unit
  /-- Nanoseconds since some fixed moment. -/
  clock : m Nat
  /-- The bytes that the tapes and registers of a run may take up. -/
  memory : Nat
  /-- Makes a directory, and those above it as far as they are missing. -/
  makeDirectories : String → m (Except FileError Unit)
  /-- Makes or empties a file. -/
  createFile : String → m (Except FileError Unit)
  /-- Fills a file that has been made. -/
  fillFile : String → Array UInt8 → m (Except FileError Unit)

/-- Saves a frame as an image file.  The file is made before the frame is encoded, and holds what
the encoder has written even if it has failed. -/
def Host.saveFrame {m : Type → Type} [Monad m] (h : Host m) (path : String) (f : Frame) :
    ExceptT Error m Unit := do
  match ← h.createFile path with
  | .error e => throw (.file e)
  | .ok () =>
    let (bytes, result) := f.writeImage h.encoder
    match ← h.fillFile path bytes with
    | .error e => throw (.image (.access e))
    | .ok () =>
      match result with
      | .error e => throw e
      | .ok () => return ()

structure Session where
  lines : Array String
  status : String
  tree : FileTree
  /-- The files that have been filled, with what they hold. -/
  images : Array (String × Array UInt8)

namespace Session

def start (tree : FileTree) : Session := ⟨#[], "", tree, #[]⟩

/-- Lets a change of the file tree take effect, however far it came. -/
def change (f : FileTree → Except FileError Unit × FileTree) :
    StateM Session (Except FileError Unit) := fun s =>
  let (result, tree) := f s.tree
  (result, { s with tree := tree })

/-- A change that leaves the tree alone if it fails. -/
def whole (f : FileTree → Except FileError FileTree) (t : FileTree) :
    Except FileError Unit × FileTree :=
  match f t with
  | .ok tree => (.ok (), tree)
  | .error e => (.error e, t)

/-- The host that records everything; its clock stands still. -/
def host (codecs : Codecs) (memory : Nat) : Host (StateM Session) where
  toCodecs := codecs
  line text := modify fun s => { s with lines := s.lines.push text }
  status text := modify fun s => { s with status := s.status ++ text }
  clock := return 0
  memory := memory
  makeDirectories path := change (·.makeDirectories path)
  createFile path := change (whole (·.createFile path))
  fillFile path bytes := do
    modify fun s => { s with images := s.images.push (path, bytes) }
    return .ok ()

end Session
end TapeTorus
