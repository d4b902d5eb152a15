import TapeTorus.Tick

/-!
# The world

A torus of programs with their tapes and registers.  An operation that fails
leaves the world as it was.
-/

namespace TapeTorus

structure World where
  config : Config
  torus : Torus
  store : Store
  bank : RegisterBank
  ticks : Nat

namespace World

/-- The bytes that the tapes and registers of a world take up. -/
def footprint (c : Config) : Nat :=
  c.width * c.height * (c.tapeLength * Store.cellBytes + Registers.bytes)

/-- A world whose tapes and registers are all zero. -/
def ofConfig (c : Config) : Except Error World := do
  c.validate
  let torus ← Torus.ofSides c.width c.height
  let store ← Store.zeroed c.tapeLength torus.size
  let bank ← Fault.lift (RegisterBank.fresh torus.size c.tapeLength)
  return ⟨c, torus, store, bank, 0⟩

/-- A world with the given tapes and registers; without registers every
program is at its start. -/
def ofBuffers (c : Config) (tape : Array UInt32) (registers : Option (Array UInt32)) :
    Except Error World := do
  c.validate
  let torus ← Torus.ofSides c.width c.height
  let expected ← Fault.lift (Size.mul torus.size c.tapeLength)
  Error.require (tape.size = expected) (.tapeBuffer tape.size torus.size c.tapeLength expected)
  let store ← Store.ofCells c.tapeLength tape
  let bank ← RegisterBank.ofBuffer torus.size c.tapeLength registers
  Error.require (bank.size = torus.size) (.registerCount bank.size torus.size)
  return ⟨c, torus, store, bank, 0⟩

def machine (w : World) : Machine := ⟨w.torus, w.config.exec⟩

/-! ## Host operations -/

def setRegisters (w : World) (program : Nat) (r : Registers) : Except Error World := do
  let bank ← w.bank.set program r
  return { w with bank := bank }

/-- Replaces every tape and leaves the registers alone. -/
def loadTape (w : World) (buffer : Array UInt32) : Except Error World := do
  let store ← w.store.writeCells buffer
  return { w with store := store }

def resetRegisters (w : World) : World := { w with bank := w.bank.reset }

/-! ## Ticks -/

/-- One tick in which every program takes the given turn. -/
def tickWith (turn : Nat → Registers → Store → Except Fault Turn) (w : World) :
    Except Fault (TickStats × World) := do
  let ⟨stats, bank, store⟩ ←
    Sweep.visitAll turn (List.range w.bank.size) ⟨.zero, w.bank, w.store⟩
  return (stats, { w with bank := bank, store := store, ticks := w.ticks + 1 })

def step (w : World) : Except Fault (TickStats × World) :=
  w.tickWith w.machine.stepTurn

/-- Every program restarts and runs to a halt or to the iteration bound. -/
def run (w : World) : Except Fault (TickStats × World) := do
  let limit ← w.config.exec.iterationLimit w.config.tapeLength
  w.tickWith fun program _ s => w.machine.runProgram program limit s

def tick (w : World) : Except Fault (TickStats × World) :=
  if w.config.exec.persist then w.step else w.run

/-- Runs `n` ticks on top of those that `stats` already sums up. -/
def runTicksFrom : (n : Nat) → TickStats → World → Except Fault (TickStats × World)
  | 0, stats, w => .ok (stats, w)
  | n + 1, stats, w => do
    let (more, w) ← w.tick
    runTicksFrom n (stats.merge more) w

/-- Runs `n` ticks and sums up what happened in them. -/
def runTicks (w : World) (n : Nat) : Except Fault (TickStats × World) :=
  runTicksFrom n .zero w

/-! ## Listings -/

def disassemble (w : World) : Except Fault (List String) := do
  let tapes ← w.store.tapes
  return tapes.map Instruction.disassemble

end World
end TapeTorus
