import TapeTorus.CommandLine.Options
import TapeTorus.Proofs.Building
import TapeTorus.Proofs.GridSizes

/-!
# Configurations of square tapes

Options and square worlds name the side of the square that a tape is drawn as.  The
area is taken before any size is checked.  A configuration comes out exactly if its
sizes are simulatable in exact numbers, and the exact area is its tape length.  An area
that is no size is never cut down to one, but it ends in a fault where all other unfit
sizes are refused.
-/

namespace TapeTorus

open CommandLine (Options)
open Error (OnlyRefuses onlyRefuses_ok)

/-- What becomes of a configuration `c` whose tapes are squares of the given side: it
comes out as it is if it is simulatable, and is refused if it is not; but a side whose
area is no size is a fault. -/
structure SquareOutcome (x : Except Error Config) (side : Nat) (c : Config) : Prop where
  ok_iff : ∀ c', x = .ok c' ↔ c.Simulatable ∧ c' = c
  refused_iff : (∃ cause, x = .error (.config cause)) ↔ ¬c.Simulatable ∧ side < 2 ^ 32
  fault_iff : x = .error (.fault .overflow) ↔ 2 ^ 32 ≤ side

private theorem SquareOutcome.of_area (side : Nat) (config : Nat → Config)
    (hlength : ∀ area, (config area).tapeLength = area) :
    SquareOutcome
      (Fault.lift (Size.mul side side) >>= fun area =>
        (config area).validate >>= fun _ => .ok (config area))
      side (config (side * side)) := by
  by_cases hside : side < 2 ^ 32
  · have harea : side * side < Size.limit := Size.area_lt_iff.2 hside
    rw [Size.mul_eq_ok harea, Fault.lift_ok, ok_bind]
    by_cases haccepted : (config (side * side)).Simulatable
    · rw [Config.validate_eq_ok_iff_simulatable.2 haccepted, ok_bind]
      constructor
      · simp [haccepted, eq_comm]
      · simp [haccepted]
      · simpa using hside
    · obtain ⟨cause, hrefused⟩ := Config.validate_eq_error haccepted
      rw [hrefused]
      constructor
      · simp [haccepted, bind, Except.bind]
      · simpa [haccepted, bind, Except.bind] using hside
      · simpa [bind, Except.bind] using hside
  · have harea : ¬side * side < Size.limit := by rwa [Size.area_lt_iff]
    have hunfit : ¬(config (side * side)).Simulatable := by
      intro h
      have hlt := h.tapeLength_lt
      rw [hlength] at hlt
      simp only [Size.limit] at harea
      omega
    rw [Size.mul_eq_error harea, Fault.lift_error]
    constructor
    · simp [hunfit, bind, Except.bind]
    · simpa [hunfit, bind, Except.bind] using Nat.le_of_not_lt hside
    · simpa [bind, Except.bind] using Nat.le_of_not_lt hside

/-! ## Grids as options give them -/

private theorem onlyRefuses_gridSize (text : String) : OnlyRefuses (GridSize.parse text) := by
  intro e h
  rcases GridSize.parse_cases text with ⟨width, height, hparse, -⟩ | ⟨cause, hparse, -⟩
  · rw [hparse] at h
    cases h
  · rw [hparse] at h
    exact ⟨cause, (Except.error.inj h).symm⟩

private theorem onlyRefuses_sides (o : Options) : OnlyRefuses o.sides := by
  unfold Options.sides
  split
  · exact onlyRefuses_gridSize _
  · exact onlyRefuses_ok _

/-- The configuration that options describe in exact numbers, on a grid of the given
sides. -/
def CommandLine.Options.described (o : Options) (width height : Nat) : Config :=
  ⟨o.tapeSide * o.tapeSide, width, height, ⟨o.persist, o.haltOnZero, o.maxIterations⟩, o.threads⟩

theorem config_of_sides {o : Options} {width height : Nat} (h : o.sides = .ok (width, height)) :
    SquareOutcome o.config o.tapeSide (o.described width height) := by
  have hconfig := SquareOutcome.of_area o.tapeSide
    (fun area =>
      ⟨area, width, height, ⟨o.persist, o.haltOnZero, o.maxIterations⟩, o.threads⟩)
    fun _ => rfl
  unfold Options.config
  rw [h, ok_bind]
  exact hconfig

theorem config_refused_of_sides {o : Options} (h : ∀ sides, o.sides ≠ .ok sides) :
    ∃ cause, o.config = .error (.config cause) := by
  obtain ⟨cause, hcause⟩ := (onlyRefuses_sides o).exists_cause h
  exact ⟨cause, by rw [Options.config, hcause]; rfl⟩

private theorem square_validated (side worldSize : Nat) :
    SquareOutcome
      (do
        let c ← Fault.lift (Config.square side worldSize)
        c.validate
        return c)
      side
      { Config.standard with
        tapeLength := side * side, width := worldSize, height := worldSize } := by
  have harea := SquareOutcome.of_area side
    (fun area =>
      { Config.standard with tapeLength := area, width := worldSize, height := worldSize })
    fun _ => rfl
  unfold Config.square
  cases hmul : Size.mul side side with
  | error f =>
    rw [hmul] at harea
    exact harea
  | ok area =>
    rw [hmul] at harea
    exact harea

/-- A grid that cannot be read is refused.  On any other, the options give just the
simulatable configurations, with the exact area of the tapes, and so do square worlds
that are checked; what is not simulatable is refused as long as the side of the tapes is
below `2 ^ 32`, and is a fault from there on. -/
theorem config_of_square_tapes (o : Options) (side worldSize : Nat) :
    ((∀ sides, o.sides ≠ .ok sides) → ∃ cause, o.config = .error (.config cause)) ∧
    (∀ width height, o.sides = .ok (width, height) →
      SquareOutcome o.config o.tapeSide (o.described width height)) ∧
    SquareOutcome
      (do
        let c ← Fault.lift (Config.square side worldSize)
        c.validate
        return c)
      side
      { Config.standard with
        tapeLength := side * side, width := worldSize, height := worldSize } := by
  refine ⟨?_, ?_, square_validated side worldSize⟩
  · intro h
    exact config_refused_of_sides h
  · intro width height h
    exact config_of_sides h

/-- Options for tapes of the given side on a grid that is given as text. -/
def CommandLine.Options.gridded (tapeSide : Nat) (text : String) : Options :=
  { standard 1 0 with tapeSide := tapeSide, grid := some text }

/-- The longest square tapes on a small grid come out, the next longer ones are refused,
and so is a grid without columns; a side of `2 ^ 62 + 2` is a fault. -/
theorem config_of_square_tapes_longest :
    (Options.gridded 65535 "3x2").config = .ok ⟨4294836225, 3, 2, .persistent, none⟩ ∧
    (∃ cause, (Options.gridded 65536 "3x2").config = .error (.config cause)) ∧
    (∃ cause, (Options.gridded 4 "0x2").config = .error (.config cause)) ∧
    (Options.gridded (2 ^ 62 + 2) "3x2").config = .error (.fault .overflow) := by
  have hread : ∀ side, SquareOutcome (Options.gridded side "3x2").config side
      ((Options.gridded side "3x2").described 3 2) := by
    intro side
    obtain ⟨-, hoptions, -⟩ := config_of_square_tapes (Options.gridded side "3x2") side 3
    exact hoptions 3 2 rfl
  refine ⟨?_, ?_, ?_, ?_⟩
  · refine ((hread 65535).ok_iff _).2 ⟨?_, rfl⟩
    constructor <;> decide
  · refine (hread 65536).refused_iff.2 ⟨?_, by decide⟩
    intro h
    exact absurd h.tapeLength_lt (by decide)
  · obtain ⟨hunread, -, -⟩ := config_of_square_tapes (Options.gridded 4 "0x2") 4 0
    apply hunread
    intro sides h
    have hzero : (Options.gridded 4 "0x2").sides = .error (.config .gridZero) := rfl
    rw [hzero] at h
    cases h
  · exact (hread (2 ^ 62 + 2)).fault_iff.2 (by decide)

/-- A side whose area is no size: the configuration is not simulatable, but it is not
refused either.  The low 64 bits of the area alone would make a tape of four cells. -/
theorem area_overflow_not_refused :
    ¬({ Options.standard 1 0 with tapeSide := 2 ^ 62 + 2, worldSize := 1 } :
        Options).config.isOk ∧
    ¬(∃ cause, ({ Options.standard 1 0 with tapeSide := 2 ^ 62 + 2, worldSize := 1 } :
        Options).config = .error (.config cause)) ∧
    ({ Options.standard 1 0 with tapeSide := 2 ^ 62 + 2, worldSize := 1 } : Options).config =
      .error (.fault .overflow) ∧
    (2 ^ 62 + 2) * (2 ^ 62 + 2) % 2 ^ 64 = 4 := by
  have hfault : ({ Options.standard 1 0 with tapeSide := 2 ^ 62 + 2, worldSize := 1 } :
      Options).config = .error (.fault .overflow) :=
    (config_of_sides rfl).fault_iff.2 (by decide)
  rw [hfault]
  refine ⟨?_, ?_, rfl, by decide⟩
  · simp [Except.isOk, Except.toBool]
  · rintro ⟨cause, h⟩
    cases h

end TapeTorus
