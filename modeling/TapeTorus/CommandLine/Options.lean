import TapeTorus.Config

/-!
# Command-line options

Options are written `--name value` or `--name=value`, flags `--name`.  Each may
be given once, and the seed and the number of ticks must be given.
-/

namespace TapeTorus.CommandLine

inductive Setting where
  | seed (n : Nat)
  | ticks (n : Nat)
  | tapeSide (n : Nat)
  | worldSize (n : Nat)
  | grid (text : String)
  | persist (value : Bool)
  | haltOnZero
  | maxIterations (n : Nat)
  | threads (n : Nat)
  | metricsInterval (n : Nat)
  | benchmark
  | frames (directory : String)
  | frameInterval (n : Nat)
  | disassemble (n : Nat)
  deriving DecidableEq

inductive Form where
  | flag (setting : Setting)
  | value (read : String → Option Setting)

def size? (text : String) : Option Nat := (Numeral.read text.toList).toOption

def mode? (text : String) : Option Setting :=
  if text = "persistent" then some (.persist true)
  else if text = "run" then some (.persist false)
  else none

def forms : List (String × Form) := [
  ("seed", .value fun t => (size? t).map .seed),
  ("ticks", .value fun t => (size? t).map .ticks),
  ("tape-side", .value fun t => (size? t).map .tapeSide),
  ("world-size", .value fun t => (size? t).map .worldSize),
  ("grid", .value fun t => some (.grid t)),
  ("mode", .value mode?),
  ("halt-on-zero", .flag .haltOnZero),
  ("max-iterations", .value fun t =>
    (Numeral.readBelow? 0x1_0000_0000 t.toList).map .maxIterations),
  ("threads", .value fun t => (size? t).map .threads),
  ("metrics-interval", .value fun t => (size? t).map .metricsInterval),
  ("benchmark", .flag .benchmark),
  ("frames", .value fun t => if t = "" then none else some (.frames t)),
  ("frame-interval", .value fun t => (size? t).map .frameInterval),
  ("disassemble", .value fun t => (size? t).map .disassemble)]

/-- Why arguments do not lead to a run. -/
inductive Refusal where
  /-- The arguments do not fit the options. -/
  | usage
  /-- The arguments ask for an explanation of the options. -/
  | help
  deriving DecidableEq

/-- The name and the attached value of an argument that begins with two dashes. -/
def long? (argument : String) : Option (String × Option String) :=
  match argument.toList with
  | '-' :: '-' :: rest =>
    let name := String.ofList (rest.takeWhile (· != '='))
    match rest.dropWhile (· != '=') with
    | [] => some (name, none)
    | _ :: value => some (name, some (String.ofList value))
  | _ => none

/-- A dash begins an option, unless it stands alone. -/
def looksLikeOption (argument : String) : Bool :=
  argument.startsWith "-" && argument != "-"

/-- Adds an option that has not been given yet. -/
def record (given : List (String × Setting)) (name : String) :
    Option Setting → Except Refusal (List (String × Setting))
  | none => .error .usage
  | some setting =>
    if (given.lookup name).isSome then .error .usage else .ok ((name, setting) :: given)

/-- Reads the arguments from left to right; the first fault decides. -/
def readArguments (given : List (String × Setting)) :
    List String → Except Refusal (List (String × Setting))
  | [] => .ok given
  | argument :: rest =>
    if argument = "--" then if rest.isEmpty then .ok given else .error .usage
    else
      match long? argument with
      | none => if argument.startsWith "-h" then .error .help else .error .usage
      | some ("help", none) => .error .help
      | some (name, attached) =>
        match forms.lookup name, attached, rest with
        | some (.flag setting), none, rest => do
          readArguments (← record given name (some setting)) rest
        | some (.value read), some text, rest => do
          readArguments (← record given name (read text)) rest
        | some (.value read), none, text :: rest =>
          if looksLikeOption text then .error .usage
          else do readArguments (← record given name (read text)) rest
        | _, _, _ => .error .usage
termination_by arguments => arguments.length

structure Options where
  seed : Nat
  ticks : Nat
  tapeSide : Nat
  worldSize : Nat
  grid : Option String
  persist : Bool
  haltOnZero : Bool
  maxIterations : Option Nat
  threads : Option Nat
  metricsInterval : Nat
  benchmark : Bool
  frames : Option String
  frameInterval : Nat
  disassemble : Nat
  deriving DecidableEq

namespace Options

/-- The options where nothing but seed and ticks is given. -/
def standard (seed ticks : Nat) : Options :=
  ⟨seed, ticks, 4, 256, none, true, false, none, none, 1, false, none, 100, 0⟩

def apply (o : Options) : Setting → Options
  | .seed n => { o with seed := n }
  | .ticks n => { o with ticks := n }
  | .tapeSide n => { o with tapeSide := n }
  | .worldSize n => { o with worldSize := n }
  | .grid text => { o with grid := some text }
  | .persist value => { o with persist := value }
  | .haltOnZero => { o with haltOnZero := true }
  | .maxIterations n => { o with maxIterations := some n }
  | .threads n => { o with threads := some n }
  | .metricsInterval n => { o with metricsInterval := n }
  | .benchmark => { o with benchmark := true }
  | .frames directory => { o with frames := some directory }
  | .frameInterval n => { o with frameInterval := n }
  | .disassemble n => { o with disassemble := n }

def ofArguments (arguments : List String) : Except Refusal Options := do
  let given ← readArguments [] arguments
  if (given.lookup "seed").isSome ∧ (given.lookup "ticks").isSome then
    return (given.map (·.2)).foldl apply (standard 0 0)
  else .error .usage

/-- The sides of the grid: those of `--grid`, else the square of `--world-size`. -/
def sides (o : Options) : Except Error (Nat × Nat) :=
  match o.grid with
  | some text => GridSize.parse text
  | none => .ok (o.worldSize, o.worldSize)

/-- The configuration of the world, which can be simulated. -/
def config (o : Options) : Except Error Config := do
  let (width, height) ← o.sides
  let tapeLength ← Fault.lift (Size.mul o.tapeSide o.tapeSide)
  let c : Config :=
    ⟨tapeLength, width, height, ⟨o.persist, o.haltOnZero, o.maxIterations⟩, o.threads⟩
  c.validate
  return c

end Options
end TapeTorus.CommandLine
