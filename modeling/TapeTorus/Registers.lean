/-!
# Registers

A program owns three registers, each of which names a cell of its own tape.
-/

namespace TapeTorus

/-- The instruction pointer and the two heads of one program. -/
structure Registers where
  ip : UInt32
  head0 : UInt32
  head1 : UInt32
  deriving DecidableEq

namespace Registers

/-- The bytes that a table keeps for one triple. -/
abbrev bytes : Nat := 12

/-- Every program starts with all three registers at the first cell. -/
def start : Registers := ⟨0, 0, 0⟩

/-- All three registers name a cell of a tape of `length` cells. -/
def Within (r : Registers) (length : Nat) : Prop :=
  r.ip.toNat < length ∧ r.head0.toNat < length ∧ r.head1.toNat < length

instance (r : Registers) (length : Nat) : Decidable (r.Within length) :=
  inferInstanceAs (Decidable (_ ∧ _ ∧ _))

theorem within_start {length : Nat} (h : 0 < length) : start.Within length := ⟨h, h, h⟩

/-- A register can name every position below `2 ^ 32`. -/
theorem toNat_ofNat {position : Nat} (h : position < 0x1_0000_0000) :
    (UInt32.ofNat position).toNat = position :=
  UInt32.toNat_ofNat_of_lt' h

/-- How messages show the registers. -/
def text (r : Registers) : String :=
  "Registers \x7b instruction_pointer: " ++ toString r.ip ++ ", head0: " ++ toString r.head0
    ++ ", head1: " ++ toString r.head1 ++ " \x7d"

end Registers
end TapeTorus
