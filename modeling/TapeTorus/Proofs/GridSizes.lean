import Mathlib.Algebra.Group.Nat.Defs
import Mathlib.Data.List.TakeWhile
import TapeTorus.Config

/-!
# Grid sizes as text

A grid size is two numerals with an `x` between them.  Just the texts of this form are read, and
their numbers are exact however long the numerals are; every other text is refused, for a cause
that names the part of it that is wrong.
-/

namespace TapeTorus

/-! ## Numerals -/

namespace Numeral

/-- One or more digits with the given value. -/
structure Spells (digits : List Char) (n : Nat) : Prop where
  ne_nil : digits ≠ []
  isDigit : ∀ c ∈ digits, c.isDigit
  value_eq : Nat.ofDigitChars 10 digits 0 = n

/-- The numerals of a number: its digits, which may follow one plus sign. -/
inductive Denotes : List Char → Nat → Prop where
  | unsigned {digits : List Char} {n : Nat} (h : Spells digits n) : Denotes digits n
  | signed {digits : List Char} {n : Nat} (h : Spells digits n) : Denotes ('+' :: digits) n

private theorem Denotes.not_mem {text : List Char} {n : Nat} (h : Denotes text n) : 'x' ∉ text := by
  have hdigits : ∀ {digits}, Spells digits n → 'x' ∉ digits := by
    intro digits h hmem
    exact absurd (h.isDigit _ hmem) (by decide)
  cases h with
  | unsigned h => exact hdigits h
  | signed h =>
    rw [List.mem_cons, not_or]
    exact ⟨by decide, hdigits h⟩

private theorem spells_toString (n : Nat) : Spells (toString n).toList n := by
  rw [Nat.toString_eq_repr, Nat.toList_repr]
  exact {
    ne_nil := Nat.toDigits_ne_nil
    isDigit := fun _ hc => Nat.isDigit_of_mem_toDigits (by decide) (by decide) hc
    value_eq := Nat.ofDigitChars_toDigits (by decide) (by decide) }

private theorem le_ofDigitChars (acc : Nat) (digits : List Char) :
    acc ≤ Nat.ofDigitChars 10 digits acc := by
  rw [Nat.ofDigitChars_eq_ofDigitChars_zero]
  calc acc ≤ 10 ^ digits.length * acc := Nat.le_mul_of_pos_left _ (Nat.pow_pos (by decide))
    _ ≤ 10 ^ digits.length * acc + Nat.ofDigitChars 10 digits 0 := Nat.le_add_right _ _

private theorem readDigits_eq_ok_iff {acc n : Nat} {digits : List Char} (hacc : acc < Size.limit) :
    readDigits acc digits = .ok n ↔
      (∀ c ∈ digits, c.isDigit) ∧ Nat.ofDigitChars 10 digits acc = n ∧ n < Size.limit := by
  induction digits generalizing acc with
  | nil =>
    constructor
    · intro h
      obtain rfl := Except.ok.inj h
      exact ⟨by simp, rfl, hacc⟩
    · rintro ⟨-, rfl, -⟩
      rfl
  | cons c digits ih =>
    by_cases hc : c.isDigit
    · have hdigit : digit? c = some (c.toNat - '0'.toNat) := if_pos hc
      rw [readDigits, hdigit, Nat.ofDigitChars_cons, List.forall_mem_cons]
      dsimp only
      by_cases hlt : 10 * acc + (c.toNat - '0'.toNat) < Size.limit
      · rw [if_pos hlt, ih hlt]
        simp [hc]
      · -- the value has left the range, and no digit that follows brings it back
        have hle := le_ofDigitChars (10 * acc + (c.toNat - '0'.toNat)) digits
        rw [if_neg hlt]
        constructor
        · intro h
          cases h
        · rintro ⟨-, rfl, hn⟩
          exact absurd (Nat.lt_of_le_of_lt hle hn) hlt
    · have hdigit : digit? c = none := if_neg hc
      rw [readDigits, hdigit]
      simp [hc]

private theorem readDigits_eq_ok_iff_spells {digits : List Char} {n : Nat} (hne : digits ≠ []) :
    readDigits 0 digits = .ok n ↔ Spells digits n ∧ n < Size.limit := by
  rw [readDigits_eq_ok_iff (by decide)]
  constructor
  · rintro ⟨hdigits, hvalue, hn⟩
    exact ⟨⟨hne, hdigits, hvalue⟩, hn⟩
  · rintro ⟨h, hn⟩
    exact ⟨h.isDigit, h.value_eq, hn⟩

private theorem read_signed {digits : List Char} (hne : digits ≠ []) :
    read ('+' :: digits) = readDigits 0 digits := by
  cases digits with
  | nil => exact absurd rfl hne
  | cons c digits => rfl

private theorem read_unsigned {c : Char} {cs : List Char} (hc : c ≠ '+') :
    read (c :: cs) = readDigits 0 (c :: cs) := by
  unfold read
  split <;> simp_all

private theorem denotes_signed_iff {digits : List Char} {n : Nat} :
    Denotes ('+' :: digits) n ↔ Spells digits n := by
  constructor
  · intro h
    cases h with
    | unsigned h => exact absurd (h.isDigit '+' (by simp)) (by decide)
    | signed h => exact h
  · exact .signed

private theorem denotes_unsigned_iff {c : Char} {cs : List Char} {n : Nat} (hc : c ≠ '+') :
    Denotes (c :: cs) n ↔ Spells (c :: cs) n := by
  constructor
  · intro h
    cases h with
    | unsigned h => exact h
    | signed h => exact absurd rfl hc
  · exact .unsigned

/-- Just the numerals of sizes are read, each as its number. -/
theorem read_eq_ok_iff {text : List Char} {n : Nat} :
    read text = .ok n ↔ Denotes text n ∧ n < Size.limit := by
  have hnil : ¬Spells [] n := fun h => h.ne_nil rfl
  match text with
  | [] =>
    constructor
    · intro h
      cases h
    · rintro ⟨⟨h⟩, -⟩
      exact absurd h hnil
  | c :: cs =>
    by_cases hc : c = '+'
    · subst hc
      rw [denotes_signed_iff]
      by_cases hcs : cs = []
      · subst hcs
        simp [read, hnil]
      · rw [read_signed hcs, readDigits_eq_ok_iff_spells hcs]
    · rw [read_unsigned hc, denotes_unsigned_iff hc,
        readDigits_eq_ok_iff_spells (List.cons_ne_nil c cs)]

private theorem not_denotes_of_read {text : List Char} {cause : NumeralError}
    (h : read text = .error cause) : ∀ n < 2 ^ 64, ¬Denotes text n := by
  intro n hn htext
  rw [read_eq_ok_iff.2 ⟨htext, hn⟩] at h
  cases h

end Numeral

/-! ## Grids -/

namespace GridSize

/-- The text is `left`, then the only `x` in it, then `right`. -/
structure Sides (text left right : List Char) : Prop where
  text_eq : text = left ++ 'x' :: right
  left_free : 'x' ∉ left
  right_free : 'x' ∉ right

private theorem sides?_of_first {left right : List Char} (hleft : 'x' ∉ left) :
    sides? (left ++ 'x' :: right) = if 'x' ∈ right then none else some (left, right) := by
  have hfree : ∀ c ∈ left, (c != 'x') = true := by
    intro c hc
    rw [bne_iff_ne]
    rintro rfl
    exact hleft hc
  rw [sides?, List.dropWhile_append_of_pos hfree, List.takeWhile_append_of_pos hfree]
  simp

private theorem sides?_of_not_mem {text : List Char} (h : 'x' ∉ text) : sides? text = none := by
  have hfree : ∀ c ∈ text, (c != 'x') = true := by
    intro c hc
    rw [bne_iff_ne]
    rintro rfl
    exact h hc
  have hnone : text.dropWhile (· != 'x') = [] := List.dropWhile_eq_nil_iff.2 hfree
  rw [sides?, hnone]

private theorem sides?_cases (text : List Char) :
    (sides? text = none ∧ text.count 'x' ≠ 1) ∨
      ∃ left right, Sides text left right := by
  by_cases h : 'x' ∈ text
  · obtain ⟨left, right, rfl, hleft⟩ := List.eq_append_cons_of_mem h
    by_cases hright : 'x' ∈ right
    · left
      refine ⟨by rw [sides?_of_first hleft, if_pos hright], ?_⟩
      have hmore := List.count_pos_iff.2 hright
      rw [List.count_append, List.count_cons_self]
      omega
    · right
      exact ⟨left, right, rfl, hleft, hright⟩
  · left
    refine ⟨sides?_of_not_mem h, ?_⟩
    rw [List.count_eq_zero.2 h]
    decide

private theorem Sides.sides?_eq {text left right : List Char} (h : Sides text left right) :
    sides? text = some (left, right) := by
  rw [h.text_eq, sides?_of_first h.left_free, if_neg h.right_free]

/-- The text is written as a grid size: numerals of two positive sizes around an `x`. -/
structure Written (text : String) (width height : Nat) : Prop where
  form : ∃ left right, text.toList = left ++ 'x' :: right ∧
    Numeral.Denotes left width ∧ Numeral.Denotes right height
  width_pos : 1 ≤ width
  width_lt : width < 2 ^ 64
  height_pos : 1 ≤ height
  height_lt : height < 2 ^ 64

/-- What the cause of a refusal says is wrong with the text. -/
inductive Misspelt (text : String) : ConfigError → Prop where
  | format (h : text.toList.count 'x' ≠ 1) : Misspelt text (.gridFormat text)
  | width {left right : List Char} {cause : NumeralError} (hsides : Sides text.toList left right)
      (h : ∀ n < 2 ^ 64, ¬Numeral.Denotes left n) : Misspelt text (.gridWidth cause)
  | height {left right : List Char} {width : Nat} {cause : NumeralError}
      (hsides : Sides text.toList left right) (hwidth : Numeral.Denotes left width)
      (h : ∀ n < 2 ^ 64, ¬Numeral.Denotes right n) : Misspelt text (.gridHeight cause)
  | zero {left right : List Char} {width height : Nat} (hsides : Sides text.toList left right)
      (hwidth : Numeral.Denotes left width) (hheight : Numeral.Denotes right height)
      (h : width = 0 ∨ height = 0) : Misspelt text .gridZero

private theorem written_toString {width height : Nat} (hwidth : 0 < width)
    (hwidth' : width < 2 ^ 64)
    (hheight : 0 < height) (hheight' : height < 2 ^ 64) :
    Written (toString width ++ "x" ++ toString height) width height where
  form := by
    refine ⟨_, _, ?_, .unsigned (Numeral.spells_toString width),
      .unsigned (Numeral.spells_toString height)⟩
    rw [String.toList_append, String.toList_append, List.append_assoc]
    rfl
  width_pos := hwidth
  width_lt := hwidth'
  height_pos := hheight
  height_lt := hheight'

private theorem parse_of_sides {text : String} {left right : List Char}
    (h : Sides text.toList left right) :
    parse text = (do
      let width ← (Numeral.read left).mapError (.config ∘ .gridWidth)
      let height ← (Numeral.read right).mapError (.config ∘ .gridHeight)
      Error.require (0 < width ∧ 0 < height) .gridZero
      return (width, height)) := by
  rw [parse, h.sides?_eq]

private theorem parse_of_written {text : String} {width height : Nat}
    (h : Written text width height) :
    parse text = .ok (width, height) := by
  obtain ⟨left, right, htext, hleft, hright⟩ := h.form
  rw [parse_of_sides ⟨htext, hleft.not_mem, hright.not_mem⟩,
    Numeral.read_eq_ok_iff.2 ⟨hleft, h.width_lt⟩, Numeral.read_eq_ok_iff.2 ⟨hright, h.height_lt⟩]
  dsimp only [Except.mapError, ok_bind]
  rw [Error.require_eq_ok ⟨h.width_pos, h.height_pos⟩]
  rfl

/-- The parts of a text are looked at from left to right, and its sizes at last. -/
theorem parse_cases (text : String) :
    (∃ width height, parse text = .ok (width, height) ∧ Written text width height) ∨
      ∃ cause, parse text = .error (.config cause) ∧ Misspelt text cause := by
  rcases sides?_cases text.toList with ⟨hnone, hcount⟩ | ⟨left, right, hsides⟩
  · right
    exact ⟨.gridFormat text, by rw [parse, hnone], .format hcount⟩
  rw [parse_of_sides hsides]
  cases hleft : Numeral.read left with
  | error cause =>
    right
    exact ⟨.gridWidth cause, rfl, .width hsides (Numeral.not_denotes_of_read hleft)⟩
  | ok width =>
    obtain ⟨hwidth, hwidthLt⟩ := Numeral.read_eq_ok_iff.1 hleft
    cases hright : Numeral.read right with
    | error cause =>
      right
      exact ⟨.gridHeight cause, rfl, .height hsides hwidth (Numeral.not_denotes_of_read hright)⟩
    | ok height =>
      obtain ⟨hheight, hheightLt⟩ := Numeral.read_eq_ok_iff.1 hright
      dsimp only [Except.mapError, ok_bind]
      by_cases hpos : 0 < width ∧ 0 < height
      · left
        refine ⟨width, height, by rw [Error.require_eq_ok hpos]; rfl, ?_⟩
        exact ⟨⟨left, right, hsides.text_eq, hwidth, hheight⟩, hpos.1, hwidthLt, hpos.2, hheightLt⟩
      · right
        refine ⟨.gridZero, by rw [Error.require_eq_error hpos]; rfl, ?_⟩
        exact .zero hsides hwidth hheight (by omega)

/-- A text is read as a grid size exactly if it is written as one, and then as the numbers that
it is written with; any other text is refused, with what is wrong with it for a cause.  Decimal
sizes are read back. -/
theorem parse_reads_written (text : String) :
    (∀ width height, parse text = .ok (width, height) ↔ Written text width height) ∧
    ((¬∃ width height, Written text width height) →
      ∃ cause, parse text = .error (.config cause) ∧ Misspelt text cause) ∧
    ∀ width height, 0 < width → width < 2 ^ 64 → 0 < height → height < 2 ^ 64 →
      parse (toString width ++ "x" ++ toString height) = .ok (width, height) := by
  refine ⟨?_, ?_, ?_⟩
  · intro width height
    constructor
    · intro h
      rcases parse_cases text with ⟨width', height', hparse, hwritten⟩ | ⟨cause, hparse, -⟩
      · rw [hparse, Except.ok.injEq, Prod.mk.injEq] at h
        obtain ⟨rfl, rfl⟩ := h
        exact hwritten
      · rw [hparse] at h
        cases h
    · exact parse_of_written
  · intro h
    rcases parse_cases text with ⟨width, height, -, hwritten⟩ | hrefused
    · exact absurd ⟨width, height, hwritten⟩ h
    · exact hrefused
  · intro width height hwidth hwidth' hheight hheight'
    exact parse_of_written (written_toString hwidth hwidth' hheight hheight')

/-- Signs, leading zeros and the largest size are read, and so is a decimal text; one more than
the largest size is refused. -/
theorem parse_reads_written_largest :
    parse "+007x18446744073709551615" = .ok (7, 2 ^ 64 - 1) ∧
    (∃ cause, parse "1x18446744073709551616" = .error (.config cause) ∧
      Misspelt "1x18446744073709551616" cause) ∧
    parse "240x135" = .ok (240, 135) := by
  refine ⟨?_, ?_, ?_⟩
  · obtain ⟨haccepts, -, -⟩ := parse_reads_written "+007x18446744073709551615"
    refine (haccepts 7 (2 ^ 64 - 1)).2 ?_
    constructor
    case form =>
      refine ⟨"+007".toList, "18446744073709551615".toList, rfl, .signed ?_, .unsigned ?_⟩
      · exact ⟨by decide, List.all_eq_true.1 rfl, by decide⟩
      · exact ⟨by decide, List.all_eq_true.1 rfl, by decide⟩
    all_goals decide
  · obtain ⟨haccepts, hrefuses, -⟩ := parse_reads_written "1x18446744073709551616"
    apply hrefuses
    rintro ⟨width, height, hwritten⟩
    have hlarge : parse "1x18446744073709551616" = .error (.config (.gridHeight .tooLarge)) := rfl
    rw [(haccepts width height).2 hwritten] at hlarge
    cases hlarge
  · obtain ⟨-, -, hdecimal⟩ := parse_reads_written "240x135"
    exact hdecimal 240 135 (by decide) (by decide) (by decide) (by decide)

end GridSize
end TapeTorus
