import TapeTorus.Error

/-!
# The torus

Programs sit on a `width × height` torus and are numbered row by row.  Each
program has one neighbour in each of the four directions.
-/

namespace TapeTorus

inductive Direction where
  | east
  | west
  | south
  | north
  deriving DecidableEq

namespace Direction

def all : List Direction := [east, west, south, north]

/-- The direction that a cell value selects: its residue modulo four. -/
def ofSelector (value : Nat) : Direction :=
  match value % 4 with
  | 0 => east
  | 1 => west
  | 2 => south
  | _ => north

def opposite : Direction → Direction
  | east => west
  | west => east
  | south => north
  | north => south

@[simp] theorem opposite_opposite (d : Direction) : d.opposite.opposite = d := by
  cases d <;> rfl

end Direction

/-- A torus with at least one program, and not more than can be counted. -/
structure Torus where
  width : Nat
  height : Nat
  width_pos : 0 < width
  height_pos : 0 < height
  fits : width * height < Size.limit

namespace Torus

def ofSides (width height : Nat) : Except Error Torus :=
  if h : 0 < width ∧ 0 < height then
    if fits : width * height < Size.limit then
      let ⟨width_pos, height_pos⟩ := h
      .ok ⟨width, height, width_pos, height_pos, fits⟩
    else .error (.config (.tooManyPrograms width height))
  else .error (.config (.emptyGrid width height))

def square (side : Nat) : Except Error Torus := ofSides side side

def size (t : Torus) : Nat := t.width * t.height

def isEmpty (t : Torus) : Bool := t.size == 0

theorem size_lt (t : Torus) : t.size < Size.limit := t.fits

/-- Column and row of a program. -/
def coords (t : Torus) (i : Nat) : Nat × Nat := (i % t.width, i / t.width)

/-- The program at column `x` of row `y`. -/
def index (t : Torus) (x y : Nat) : Except Fault Nat := do
  let start ← Size.mul y t.width
  Size.add start x

theorem ofSides_eq_ok {width height : Nat} (hw : 0 < width) (hh : 0 < height)
    (fits : width * height < Size.limit) :
    ofSides width height = .ok ⟨width, height, hw, hh, fits⟩ := by
  rw [ofSides, dif_pos ⟨hw, hh⟩, dif_pos fits]

theorem sides_of_ofSides {width height : Nat} {t : Torus}
    (h : ofSides width height = .ok t) : t.width = width ∧ t.height = height := by
  by_cases hsides : 0 < width ∧ 0 < height
  · by_cases hfits : width * height < Size.limit
    · rw [ofSides_eq_ok hsides.1 hsides.2 hfits] at h
      obtain rfl := Except.ok.inj h
      exact ⟨rfl, rfl⟩
    · rw [ofSides, dif_pos hsides, dif_neg hfits] at h
      cases h
  · rw [ofSides, dif_neg hsides] at h
    cases h

theorem width_le_size (t : Torus) : t.width ≤ t.size :=
  Nat.le_mul_of_pos_right t.width t.height_pos

theorem index_lt (t : Torus) {x y : Nat} (hx : x < t.width) (hy : y < t.height) :
    y * t.width + x < t.size := by
  rw [size, Nat.mul_comm t.width]
  exact Size.place_lt hy hx

theorem index_eq_ok (t : Torus) {x y : Nat} (hx : x < t.width) (hy : y < t.height) :
    t.index x y = .ok (y * t.width + x) := by
  have h := t.index_lt hx hy
  have hsize := t.size_lt
  rw [index, Size.mul_eq_ok (by omega)]
  exact Size.add_eq_ok (by omega)

/-- The program next to `i`.  At the edges the torus closes: the last column
borders on the first, and the last row on the first. -/
def neighbor (t : Torus) (i : Nat) : Direction → Except Fault Nat
  | .east => do
    let back ← Size.sub t.width 1
    if i % t.width = back then Size.sub i back else Size.add i 1
  | .west => do
    let back ← Size.sub t.width 1
    if i % t.width = 0 then Size.add i back else Size.sub i 1
  | .south => do
    let lastRow ← Size.sub t.size t.width
    if lastRow ≤ i then Size.sub i lastRow else Size.add i t.width
  | .north => do
    let lastRow ← Size.sub t.size t.width
    if i < t.width then Size.add i lastRow else Size.sub i t.width

/-- The neighbours of `i`, in the order of `Direction.all`. -/
def neighbors (t : Torus) (i : Nat) : Except Fault (List Nat) :=
  Direction.all.mapM (t.neighbor i)

end Torus
end TapeTorus
