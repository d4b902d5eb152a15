import TapeTorus.Generator
import TapeTorus.World

/-!
# Seeding

A fresh world holds random bytes, with symbols dropped at random cells of every
tape so that it is not mostly without effect.
-/

namespace TapeTorus

structure Seeder where
  /-- The symbols to drop; none disables the dropping. -/
  symbols : Array UInt8
  /-- Drops per tape; as many as the tape has cells if not set. -/
  drops : Option Nat

namespace Seeder

/-- The start and end of a loop, copies and head moves, and one byte without effect. -/
def standardSymbols : List UInt8 :=
  [.loopStart, .head1Left, .push, .head0Right, .loopEnd, .decrement].map Instruction.toByte
    ++ ['^'.toUInt8]

def standard : Seeder := ⟨standardSymbols.toArray, none⟩

def everyInstruction : Seeder := ⟨Instruction.bytes.toArray, none⟩

variable {σ : Type} (G : Generator σ)

def randomBytes : (count : Nat) → σ → Array UInt32 → σ × Array UInt32
  | 0, g, cells => (g, cells)
  | count + 1, g, cells =>
    let (b, g) := G.byte g
    randomBytes count g (cells.push b.toUInt32)

/-- Drops a symbol on the tape of `tapeLength` cells that begins at `start`: a cell
is drawn, then the symbol. -/
def drop (symbols : Array UInt8) (tapeLength start : Nat) (g : σ) (cells : Array UInt32) :
    Except Fault (σ × Array UInt32) :=
  let (offset, g) := G.below tapeLength g
  let (choice, g) := G.below symbols.size g
  if h : choice < symbols.size ∧ start + offset < cells.size then
    .ok (g, cells.set (start + offset) symbols[choice].toUInt32)
  else .error .outOfRange

/-- Drops `count` symbols on the tape of `tapeLength` cells that begins at `start`. -/
def dropOnTape (symbols : Array UInt8) (tapeLength start : Nat) :
    (count : Nat) → σ → Array UInt32 → Except Fault (σ × Array UInt32)
  | 0, g, cells => .ok (g, cells)
  | count + 1, g, cells => do
    let (g, cells) ← drop G symbols tapeLength start g cells
    dropOnTape symbols tapeLength start count g cells

/-- Drops symbols on `count` tapes in turn, from the one that begins at `start`. -/
def dropOnTapes (symbols : Array UInt8) (tapeLength drops : Nat) :
    (count start : Nat) → σ → Array UInt32 → Except Fault (σ × Array UInt32)
  | 0, _, g, cells => .ok (g, cells)
  | count + 1, start, g, cells => do
    let (g, cells) ← dropOnTape G symbols tapeLength start drops g cells
    dropOnTapes symbols tapeLength drops count (start + tapeLength) g cells

/-- The cells of `programs` fresh tapes: first all random bytes, then the drops,
tape by tape. -/
def fill (d : Seeder) (tapeLength programs : Nat) (seed : UInt64) :
    Except Fault (Array UInt32) := do
  let total ← Size.mul tapeLength programs
  Size.table total Store.cellBytes
  let (g, cells) := randomBytes G total (G.ofSeed seed) #[]
  if d.symbols.size = 0 ∨ tapeLength = 0 then return cells
  else do
    let (_, cells) ←
      dropOnTapes G d.symbols tapeLength (d.drops.getD tapeLength) programs 0 g cells
    return cells

/-- Gives the world fresh tapes and puts every program at its start. -/
def seed (d : Seeder) (w : World) (seed : UInt64) : Except Error World := do
  let cells ← Fault.lift (d.fill G w.store.tapeLength w.store.programs seed)
  let w ← w.loadTape cells
  return w.resetRegisters

end Seeder
end TapeTorus
