/-!
# Sizes

Sizes, counts and indices lie below `2 ^ 64`.  Arithmetic that leaves this
range has no answer and is a fault, and so is a table of `2 ^ 63` bytes or more.
-/

namespace TapeTorus

/-- Why a computation stops without an answer. -/
inductive Fault where
  /-- A sum, difference or product left the range of sizes. -/
  | overflow
  /-- A cell, program or pixel outside its table was asked for. -/
  | outOfRange
  /-- A table was asked for that no memory can hold. -/
  | capacity
  deriving DecidableEq

/-- A sequence of two computations has a result if both have one. -/
theorem bind_eq_ok_iff {ε α β : Type} {x : Except ε α} {f : α → Except ε β} {b : β} :
    (x >>= f) = .ok b ↔ ∃ a, x = .ok a ∧ f a = .ok b := by
  cases x <;> simp [bind, Except.bind]

theorem map_bind {ε α β γ : Type} (g : β → γ) (x : Except ε α) (f : α → Except ε β) :
    (x >>= f).map g = x >>= fun a => (f a).map g := by
  cases x <;> rfl

@[simp] theorem ok_bind {ε α β : Type} (a : α) (f : α → Except ε β) :
    ((.ok a : Except ε α) >>= f) = f a := rfl

@[simp] theorem pure_eq_ok {ε α : Type} (a : α) : (pure a : Except ε α) = .ok a := rfl

theorem mapM_eq_ok {ε α β : Type} {f : α → Except ε β} {g : α → β} {l : List α}
    (h : ∀ a ∈ l, f a = .ok (g a)) : l.mapM f = .ok (l.map g) := by
  induction l with
  | nil => rfl
  | cons a l ih =>
    rw [List.mapM_cons, h a (by simp), ok_bind, ih fun b hb => h b (by simp [hb])]
    rfl

namespace Size

abbrev limit : Nat := 0x1_0000_0000_0000_0000

def add (a b : Nat) : Except Fault Nat :=
  if a + b < limit then .ok (a + b) else .error .overflow

def sub (a b : Nat) : Except Fault Nat :=
  if b ≤ a then .ok (a - b) else .error .overflow

def mul (a b : Nat) : Except Fault Nat :=
  if a * b < limit then .ok (a * b) else .error .overflow

/-- The most bytes that a table takes up. -/
abbrev tableLimit : Nat := 0x7fff_ffff_ffff_ffff

/-- Makes sure that a table of `count` entries of `bytes` bytes each can exist. -/
def table (count bytes : Nat) : Except Fault Unit :=
  if count * bytes ≤ tableLimit then .ok () else .error .capacity

theorem add_eq_ok {a b : Nat} (h : a + b < limit) : add a b = .ok (a + b) := if_pos h

theorem sub_eq_ok {a b : Nat} (h : b ≤ a) : sub a b = .ok (a - b) := if_pos h

theorem mul_eq_ok {a b : Nat} (h : a * b < limit) : mul a b = .ok (a * b) := if_pos h

theorem mul_eq_error {a b : Nat} (h : ¬a * b < limit) : mul a b = .error .overflow := if_neg h

theorem mul_eq_ok_iff {a b c : Nat} : mul a b = .ok c ↔ a * b < limit ∧ a * b = c := by
  by_cases h : a * b < limit <;> simp [mul, h]

/-- The side of a square whose area is a size. -/
theorem area_lt_iff {side : Nat} : side * side < limit ↔ side < 0x1_0000_0000 :=
  Nat.mul_self_lt_mul_self_iff (n := 0x1_0000_0000)

/-- The row of a place in a table whose rows have `n` entries. -/
theorem row_of_place {n p o : Nat} (ho : o < n) : (p * n + o) / n = p := by
  have hn : 0 < n := by omega
  rw [Nat.mul_comm, Nat.mul_add_div hn, Nat.div_eq_of_lt ho, Nat.add_zero]

theorem place_lt {m n p o : Nat} (hp : p < m) (ho : o < n) : p * n + o < m * n := by
  have h := Nat.mul_le_mul_right n (show p + 1 ≤ m from hp)
  rw [Nat.add_mul, Nat.one_mul] at h
  omega

theorem place_inj {n p o p' o' : Nat} (ho : o < n) (ho' : o' < n) :
    p * n + o = p' * n + o' ↔ p = p' ∧ o = o' := by
  constructor
  · intro h
    have hrow := congrArg (· / n) h
    simp only [row_of_place ho, row_of_place ho'] at hrow
    subst hrow
    exact ⟨rfl, Nat.add_left_cancel h⟩
  · rintro ⟨rfl, rfl⟩
    rfl

theorem table_eq_ok {count bytes : Nat} (h : count * bytes ≤ tableLimit) :
    table count bytes = .ok () := if_pos h

end Size
end TapeTorus
