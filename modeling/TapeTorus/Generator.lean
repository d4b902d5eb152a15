/-!
# Random generators

A generator is set up by a seed alone, and gives bytes and numbers below a bound.  `xoshiro` is
the xoshiro256++ generator, whose four state words are filled from a seed by PCG32.
-/

namespace TapeTorus

/-- A random generator whose states are of type `σ`. -/
structure Generator (σ : Type) where
  ofSeed : UInt64 → σ
  /-- A byte, and the state after it. -/
  byte : σ → UInt8 × σ
  /-- A number below the given one, and the state after it. -/
  below : Nat → σ → Nat × σ
  below_lt : ∀ {n : Nat}, 0 < n → ∀ g : σ, (below n g).1 < n

structure Xoshiro where
  s0 : UInt64
  s1 : UInt64
  s2 : UInt64
  s3 : UInt64
  deriving DecidableEq

namespace Xoshiro

def pcgStep (state : UInt64) : UInt64 := state * 6364136223846793005 + 11634580027462260723

def rotateRight32 (x k : UInt32) : UInt32 := (x >>> k) ||| (x <<< (32 - k))

/-- The output of PCG32 in the given state: the top five bits say how far the
folded rest is rotated. -/
def pcgOutput (state : UInt64) : UInt32 :=
  rotateRight32 (((state >>> 18) ^^^ state) >>> 27).toUInt32 (state >>> 59).toUInt32

/-- Two outputs of PCG32 as one word, the first one low, and the state after them. -/
def pcgWord (state : UInt64) : UInt64 × UInt64 :=
  let first := pcgStep state
  let second := pcgStep first
  ((pcgOutput first).toUInt64 ||| ((pcgOutput second).toUInt64 <<< 32), second)

def ofSeed (seed : UInt64) : Xoshiro :=
  let (s0, state) := pcgWord seed
  let (s1, state) := pcgWord state
  let (s2, state) := pcgWord state
  let (s3, _) := pcgWord state
  ⟨s0, s1, s2, s3⟩

def rotateLeft (x k : UInt64) : UInt64 := (x <<< k) ||| (x >>> (64 - k))

/-- The next word, and the state after it. -/
def next (g : Xoshiro) : UInt64 × Xoshiro :=
  let word := rotateLeft (g.s0 + g.s3) 23 + g.s0
  let s2 := g.s2 ^^^ g.s0
  let s3 := g.s3 ^^^ g.s1
  (word, ⟨g.s0 ^^^ s3, g.s1 ^^^ s2, s2 ^^^ (g.s1 <<< 17), rotateLeft s3 45⟩)

/-- A byte: the lowest one of the upper half of a word. -/
def byte (g : Xoshiro) : UInt8 × Xoshiro :=
  let (word, g) := g.next
  ((word >>> 32).toUInt8, g)

/-- The high half of the product of a word and a number. -/
def scale (word : UInt64) (n : Nat) : Nat := (word.toNat * n) >>> 64

/-- Draws words until the low half of the product with `n` is at most `zone`; the
high half is the number drawn.  There is none if no attempt is left. -/
def drawWithin (n : Nat) (zone : UInt64) : (attempts : Nat) → Xoshiro → Option (Nat × Xoshiro)
  | 0, _ => none
  | attempts + 1, g =>
    let (word, g) := g.next
    if word * .ofNat n ≤ zone then some (scale word n, g) else drawWithin n zone attempts g

/-- The number of states.  Drawing that has taken more attempts never ends. -/
def states : Nat := 1 <<< 256

/-- A number below `n`.  Only words of a zone whose size is a multiple of `n`
count, so that every number is equally likely.  The zero stands for a drawing that
never ends: no run gets to see it. -/
def below (n : Nat) (g : Xoshiro) : Nat × Xoshiro :=
  (drawWithin n ((.ofNat n <<< .ofNat (63 - n.log2)) - 1) states g).getD (0, g)

private theorem scale_lt {n : Nat} (h : 0 < n) (word : UInt64) : scale word n < n := by
  have hword := word.toNat_lt
  rw [scale, Nat.shiftRight_eq_div_pow, Nat.div_lt_iff_lt_mul (by decide), Nat.mul_comm n]
  exact Nat.mul_lt_mul_of_pos_right hword h

private theorem drawWithin_lt {n : Nat} (h : 0 < n) {zone : UInt64} {attempts : Nat}
    {g : Xoshiro} {drawn : Nat × Xoshiro} (hdrawn : drawWithin n zone attempts g = some drawn) :
    drawn.1 < n := by
  induction attempts generalizing g with
  | zero => cases hdrawn
  | succ attempts ih =>
    rw [drawWithin] at hdrawn
    dsimp only at hdrawn
    split at hdrawn
    · obtain rfl := Option.some.inj hdrawn
      exact scale_lt h _
    · exact ih hdrawn

theorem below_lt {n : Nat} (h : 0 < n) (g : Xoshiro) : (below n g).1 < n := by
  unfold below
  cases hdrawn : drawWithin n ((.ofNat n <<< .ofNat (63 - n.log2)) - 1) states g with
  | none => exact h
  | some drawn => exact drawWithin_lt h hdrawn

end Xoshiro

def xoshiro : Generator Xoshiro where
  ofSeed := Xoshiro.ofSeed
  byte := Xoshiro.byte
  below := Xoshiro.below
  below_lt := Xoshiro.below_lt

end TapeTorus
