import TapeTorus.CommandLine.Options
import TapeTorus.Host
import TapeTorus.Metrics
import TapeTorus.Seeder

/-!
# Running a simulation

The command seeds a world, runs it tick by tick, and reports metrics, frames
and listings on the way.
-/

namespace TapeTorus.CommandLine

/-- Why a command ends early. -/
inductive Stop where
  | refused (why : Refusal)
  /-- A failure, followed by what caused it. -/
  | failed (message : String) (causes : List String)
  | crashed (fault : Fault)
  /-- The memory does not suffice for the world. -/
  | starved

namespace Stop

/-- The causes of an error, from the outermost on. -/
def causesOf : Error → List String
  | .file e => [Error.message (.file e), e.message]
  | .image e => [Error.message (.image e), e.message]
  | e => [e.message]

/-- An error under a heading that says what was attempted. -/
def under (heading : String) : Error → Stop
  | .fault f => .crashed f
  | e => .failed heading (causesOf e)

def alone : Error → Stop
  | .fault f => .crashed f
  | e => .failed e.message (causesOf e).tail

/-- The exit code of a command that ends this way.  A starved one is cut off and has none. -/
def exitCode : Stop → Option Nat
  | refused .usage => some 2
  | refused .help => some 0
  | failed .. => some 1
  | crashed _ => some 101
  | starved => none

def indent (margin text : String) : String :=
  String.intercalate ("\n" ++ margin) (text.splitOn "\n")

/-- The causes, numbered if there are several. -/
def causeLines : List String → List String
  | [cause] => ["    " ++ indent "    " cause]
  | causes => causes.zipIdx.map fun (cause, i) =>
    "    " ++ toString i ++ ": " ++ indent "       " cause

/-- What is written to standard error at the end. -/
def text : Stop → String
  | refused .usage => "error: the arguments do not fit the options\n"
  | refused .help => ""
  | failed message [] => "Error: " ++ message ++ "\n"
  | failed message causes =>
    "Error: " ++ message ++ "\n\nCaused by:\n" ++ String.intercalate "\n" (causeLines causes)
      ++ "\n"
  | crashed f => "fault: " ++ Error.message (.fault f) ++ "\n"
  | starved => "memory allocation failed\n"

end Stop

/-! ## Texts -/

def padLeft (width : Nat) (padding : Char) (text : String) : String :=
  String.ofList (List.replicate (width - text.length) padding) ++ text

def header : String := "tick,hoe,instructions,unique,zeros,top_byte"

/-- The metrics of a population, with commas between them. -/
def row (compressedSize : Array UInt8 → Nat) (tick : Nat) (population : Array UInt8)
    (tapeLength : Nat) : String :=
  String.intercalate "," [
    toString tick,
    (Metrics.entropy compressedSize population).toFixed 6,
    (Metrics.codeDensity population).toFixed 6,
    toString (Metrics.uniqueCount population tapeLength),
    toString (Metrics.zeroCount population),
    toString (Metrics.topByte population)]

def listing (program : Nat) (tape : List UInt8) : String :=
  padLeft 6 ' ' (toString program) ++ ": " ++ Instruction.disassemble tape

def framePath (directory : String) (tick : Nat) : String :=
  let name := padLeft 8 '0' (toString tick) ++ ".png"
  if directory.endsWith "/" then directory ++ name else directory ++ "/" ++ name

/-- A time in the largest unit that does not exceed it, with two places. -/
def duration (nanoseconds : Nat) : String :=
  let inUnit (unit : Nat) : String := (Binary64.ofQuotient nanoseconds unit).toFixed 2
  if 1000000000 ≤ nanoseconds then inUnit 1000000000 ++ "s"
  else if 1000000 ≤ nanoseconds then inUnit 1000000 ++ "ms"
  else if 1000 ≤ nanoseconds then inUnit 1000 ++ "µs"
  else inUnit 1 ++ "ns"

/-- Events per second, with the given number of places. -/
def rate (count nanoseconds places : Nat) : String :=
  if nanoseconds = 0 then (if count = 0 then "NaN" else "inf")
  else (Binary64.ofQuotient (count * 1000000000) nanoseconds).toFixed places

/-! ## The run -/

variable {m : Type → Type} [Monad m]

/-- The command's actions: effects of a host, until the command stops. -/
abbrev Action (m : Type → Type) := ExceptT Stop m

/-- Stops the command if a computation has no result. -/
def orStop {α β : Type} (stop : β → Stop) : Except β α → Action m α
  | .ok a => pure a
  | .error e => throw (stop e)

def Options.reports (o : Options) (tick : Nat) : Bool := tick % o.metricsInterval == 0

def Options.draws (o : Options) (tick : Nat) : Bool :=
  tick % o.frameInterval == 0 || tick == o.ticks

def Options.announces (o : Options) (tick : Nat) : Bool :=
  tick != 0 && (tick % 100 == 0 || tick == o.ticks)

def saveFrame (h : Host m) (o : Options) (tick : Nat) (w : World) : Action m Unit :=
  match o.frames with
  | none => pure ()
  | some directory => do
    let frame ← orStop Stop.alone
      (Frame.render w.store.snapshot w.store.tapeLength w.torus.width w.torus.height)
    let path := framePath directory tick
    match ← (h.saveFrame path frame).run with
    | .ok () => pure ()
    | .error e => throw (.under ("failed to write frame " ++ path) e)

/-- Reports on the world after `tick` ticks. -/
def observe (h : Host m) (o : Options) (tick : Nat) (w : World) : Action m Unit := do
  if o.reports tick then
    h.line (row h.compressedSize tick w.store.populationBytes w.store.tapeLength)
  if o.draws tick then saveFrame h o tick w
  if o.announces tick then
    h.status ("\r" ++ "tick " ++ toString tick ++ "/" ++ toString o.ticks)

def continueFrom (h : Host m) (o : Options) :
    (remaining tick : Nat) → World → Action m World
  | 0, _, w => pure w
  | remaining + 1, tick, w => do
    let (_, w) ← orStop .crashed w.tick
    observe h o (tick + 1) w
    continueFrom h o remaining (tick + 1) w

/-- Runs all ticks, with a report on the seeded world and on each tick. -/
def simulate (h : Host m) (o : Options) (w : World) : Action m World := do
  h.line header
  observe h o 0 w
  let w ← continueFrom h o o.ticks 0 w
  h.status "\n"
  return w

/-- Runs all ticks and reports how long they took. -/
def benchmark (h : Host m) (o : Options) (w : World) : Action m World := do
  let started ← h.clock
  let (stats, w) ← orStop .crashed (w.runTicks o.ticks)
  let ended ← h.clock
  let elapsed := ended - started
  h.status (String.join [
    "Benchmark results:\n",
    "  Ticks:             ", toString o.ticks, "\n",
    "  Grid:              ", toString w.torus.width, "x", toString w.torus.height, "\n",
    "  Programs:          ", toString w.torus.size, "\n",
    "  Instructions:      ", toString stats.instructions, "\n",
    "  Halted programs:   ", toString stats.halted, "\n",
    "  Elapsed:           ", duration elapsed, "\n",
    "  Ticks/sec:         ", rate o.ticks elapsed 1, "\n",
    "  Instructions/sec:  ", rate stats.instructions elapsed 0, "\n"])
  return w

def listPrograms (h : Host m) (w : World) : (count program : Nat) → Action m Unit
  | 0, _ => pure ()
  | count + 1, program => do
    let tape ← orStop .crashed (w.store.programBytes program)
    h.line (listing program tape)
    listPrograms h w count (program + 1)

/-- Stops unless there is memory for the tapes and registers of a world. -/
def reserve (memory : Nat) (c : Config) : Except Stop Unit := do
  (Size.table (c.width * c.height * c.tapeLength) Store.cellBytes).mapError .crashed
  if memory < World.footprint c then throw .starved

/-- The seeded world that a run starts from. -/
def Options.world (o : Options) (memory : Nat) : Except Stop World := do
  let c ← o.config.mapError (.under "invalid simulation configuration")
  reserve memory c
  let w ← (World.ofConfig c).mapError (.under "failed to set up the simulation")
  (Seeder.standard.seed xoshiro w (.ofNat o.seed)).mapError .alone

def perform (h : Host m) (o : Options) : Action m Unit := do
  if o.metricsInterval = 0 ∨ o.frameInterval = 0 then
    throw (.failed "--metrics-interval and --frame-interval must be positive" [])
  let w ← orStop id (o.world h.memory)
  if let some directory := o.frames then
    match ← h.makeDirectories directory with
    | .ok () => pure ()
    | .error e =>
      throw (.failed ("failed to create frame directory " ++ directory) [e.message])
  let w ← if o.benchmark then benchmark h o w else simulate h o w
  listPrograms h w (min o.disassemble w.torus.size) 0

def usage : String :=
  String.intercalate "\n  --" ("Options:" :: forms.map fun (name, form) =>
    match form with
    | .flag _ => name
    | .value _ => name ++ " VALUE")

/-- What a command of the given arguments does, and its exit code if it has one. -/
def execute (h : Host m) (arguments : List String) : m (Option Nat) := do
  let action : Action m Unit := do
    let o ← orStop .refused (Options.ofArguments arguments)
    perform h o
  match ← action.run with
  | .ok () => return some 0
  | .error stop =>
    if stop.exitCode = some 0 then h.line usage
    h.status stop.text
    return stop.exitCode

end TapeTorus.CommandLine
