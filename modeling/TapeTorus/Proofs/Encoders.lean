import Mathlib.Tactic.Ring
import TapeTorus.ImageEncoder

/-!
# Encoders

An encoder refuses what is no image: a side of zero, or pixels that are not three bytes for each
place.  So a frame whose pixels are all there is encoded just if both its sides can be written in
32 bits: the low bits alone do not ask for as many pixels.
-/

namespace TapeTorus

namespace ImageEncoder

/-- A width of zero is refused first, then a height of zero, then any other number of bytes than
three for each place.  All else is accepted. -/
structure Lawful (e : ImageEncoder) : Prop where
  header_zeroWidth : ∀ height, (e.header 0 height).2 = .error (.image .zeroWidth)
  header_zeroHeight : ∀ width, width ≠ 0 → (e.header width 0).2 = .error (.image .zeroHeight)
  header_ok : ∀ width height, width ≠ 0 → height ≠ 0 → (e.header width height).2 = .ok ()
  data_eq : ∀ width height pixels, width ≠ 0 → height ≠ 0 →
    3 * width.toNat * height.toNat < Size.limit →
    (e.data width height pixels).2 =
      if pixels.size = 3 * width.toNat * height.toNat then .ok ()
      else .error (.image (.dataSize (3 * width.toNat * height.toNat) pixels.size))

/-- What is written for an image that has been begun. -/
def file (e : ImageEncoder) (width height : UInt32) (pixels : Array UInt8) : Array UInt8 :=
  (e.header width height).1 ++ (e.data width height pixels).1

/-- A reader gets back every image that has been accepted, and no image from what has been written
of another one. -/
structure ReadBy (e : ImageEncoder) (read : Array UInt8 → Option Frame) : Prop where
  read_file : ∀ width height pixels, (e.header width height).2 = .ok () →
    (e.data width height pixels).2 = .ok () →
    read (e.file width height pixels) = some ⟨width.toNat, height.toNat, pixels⟩
  read_header : ∀ width height cause, (e.header width height).2 = .error cause →
    read (e.header width height).1 = none
  read_refused : ∀ width height pixels cause, (e.header width height).2 = .ok () →
    (e.data width height pixels).2 = .error cause → read (e.file width height pixels) = none

end ImageEncoder

namespace Frame

variable {e : ImageEncoder} {f : Frame}

private theorem writeImage_of_header {cause : Error}
    (h : (e.header (.ofNat f.width) (.ofNat f.height)).2 = .error cause) :
    f.writeImage e = ((e.header (.ofNat f.width) (.ofNat f.height)).1, .error cause) := by
  unfold writeImage
  dsimp only
  split
  · rename_i heq
    rw [heq] at h ⊢
    rw [← h]
  · rename_i heq
    rw [heq] at h
    cases h

private theorem writeImage_of_begun (h : (e.header (.ofNat f.width) (.ofNat f.height)).2 = .ok ()) :
    f.writeImage e =
      (e.file (.ofNat f.width) (.ofNat f.height) f.pixels,
        (e.data (.ofNat f.width) (.ofNat f.height) f.pixels).2) := by
  unfold writeImage ImageEncoder.file
  dsimp only
  split
  · rename_i heq
    rw [heq] at h
    cases h
  · rename_i heq
    rw [heq]

/-- All pixels are there, and they can be counted. -/
structure Whole (f : Frame) : Prop where
  width_pos : 0 < f.width
  height_pos : 0 < f.height
  size_eq : f.pixels.size = f.width * f.height * 3
  fits : f.pixels.size < Size.limit

/-- Both sides can be written in 32 bits. -/
def FitsHeader (f : Frame) : Prop := f.width < 2 ^ 32 ∧ f.height < 2 ^ 32

private theorem ofNat_ne_zero {n : Nat} (hpos : 0 < n) (hlt : n < 2 ^ 32) : UInt32.ofNat n ≠ 0 := by
  intro hzero
  have hn : (UInt32.ofNat n).toNat = n := UInt32.toNat_ofNat_of_lt' hlt
  rw [hzero] at hn
  exact absurd hn (Nat.ne_of_lt hpos)

/-- The encoder has begun, and has been given the pixels that it asks for. -/
structure Accepted (e : ImageEncoder) (f : Frame) : Prop where
  header_ok : (e.header (.ofNat f.width) (.ofNat f.height)).2 = .ok ()
  data_ok : (e.data (.ofNat f.width) (.ofNat f.height) f.pixels).2 = .ok ()

theorem Accepted.writeImage_eq (h : f.Accepted e) :
    f.writeImage e = (e.file (.ofNat f.width) (.ofNat f.height) f.pixels, .ok ()) := by
  rw [writeImage_of_begun h.header_ok, h.data_ok]

theorem Accepted.result_eq (h : f.Accepted e) : (f.writeImage e).2 = .ok () := by
  rw [h.writeImage_eq]

theorem Accepted.read_eq (h : f.Accepted e) (hheader : f.FitsHeader)
    {read : Array UInt8 → Option Frame} (hread : e.ReadBy read) :
    read (f.writeImage e).1 = some f := by
  have hwidth : (UInt32.ofNat f.width).toNat = f.width := UInt32.toNat_ofNat_of_lt' hheader.1
  have hheight : (UInt32.ofNat f.height).toNat = f.height := UInt32.toNat_ofNat_of_lt' hheader.2
  rw [h.writeImage_eq, hread.read_file _ _ _ h.header_ok h.data_ok, hwidth, hheight]

theorem accepted_of_fits (he : e.Lawful) (h : f.Whole) (hheader : f.FitsHeader) :
    f.Accepted e := by
  have hwidth : (UInt32.ofNat f.width).toNat = f.width := UInt32.toNat_ofNat_of_lt' hheader.1
  have hheight : (UInt32.ofNat f.height).toNat = f.height := UInt32.toNat_ofNat_of_lt' hheader.2
  have hwidth' := ofNat_ne_zero h.width_pos hheader.1
  have hheight' := ofNat_ne_zero h.height_pos hheader.2
  have harea : f.pixels.size = 3 * f.width * f.height := by
    rw [h.size_eq]
    ring
  refine ⟨he.header_ok _ _ hwidth' hheight', ?_⟩
  have hdata := he.data_eq (.ofNat f.width) (.ofNat f.height) f.pixels hwidth' hheight'
  rw [hwidth, hheight, ← harea, if_pos rfl] at hdata
  exact hdata h.fits

/-- The low 32 bits of both sides are not enough for the pixels if a side has more. -/
theorem low_area_lt (h : f.Whole) (hheader : ¬f.FitsHeader) :
    3 * (UInt32.ofNat f.width).toNat * (UInt32.ofNat f.height).toNat < f.pixels.size := by
  rw [UInt32.toNat_ofNat', UInt32.toNat_ofNat']
  have hlow : f.width % 2 ^ 32 * (f.height % 2 ^ 32) < f.width * f.height := by
    have hwidth : f.width % 2 ^ 32 ≤ f.width := Nat.mod_le _ _
    have hheight : f.height % 2 ^ 32 ≤ f.height := Nat.mod_le _ _
    by_cases hfits : f.width < 2 ^ 32
    · have hlarge : 2 ^ 32 ≤ f.height := Nat.le_of_not_lt fun hlt => hheader ⟨hfits, hlt⟩
      have hless : f.height % 2 ^ 32 < f.height :=
        Nat.lt_of_lt_of_le (Nat.mod_lt _ (by decide)) hlarge
      exact Nat.mul_lt_mul_of_le_of_lt hwidth hless h.width_pos
    · have hlarge : 2 ^ 32 ≤ f.width := Nat.le_of_not_lt hfits
      have hless : f.width % 2 ^ 32 < f.width :=
        Nat.lt_of_lt_of_le (Nat.mod_lt _ (by decide)) hlarge
      exact Nat.mul_lt_mul_of_lt_of_le hless hheight h.height_pos
  rw [h.size_eq, Nat.mul_assoc, Nat.mul_comm 3]
  omega

/-- The encoder has not begun, or it has not been given the pixels that it asks for. -/
inductive Refused (e : ImageEncoder) (f : Frame) (cause : ImageError) : Prop where
  | header (hheader : (e.header (.ofNat f.width) (.ofNat f.height)).2 = .error (.image cause))
  | data (hheader : (e.header (.ofNat f.width) (.ofNat f.height)).2 = .ok ())
      (hdata : (e.data (.ofNat f.width) (.ofNat f.height) f.pixels).2 = .error (.image cause))

theorem Refused.result_eq {cause : ImageError} (h : f.Refused e cause) :
    (f.writeImage e).2 = .error (.image cause) := by
  cases h with
  | header hheader => rw [writeImage_of_header hheader]
  | data hheader hdata => rw [writeImage_of_begun hheader, hdata]

theorem Refused.read_eq {cause : ImageError} (h : f.Refused e cause)
    {read : Array UInt8 → Option Frame} (hread : e.ReadBy read) :
    read (f.writeImage e).1 = none := by
  cases h with
  | header hheader =>
    rw [writeImage_of_header hheader]
    exact hread.read_header _ _ _ hheader
  | data hheader hdata =>
    rw [writeImage_of_begun hheader]
    exact hread.read_refused _ _ _ _ hheader hdata

theorem refused_of_zero (he : e.Lawful)
    (h : UInt32.ofNat f.width = 0 ∨ UInt32.ofNat f.height = 0) : ∃ cause, f.Refused e cause := by
  by_cases hwidth : UInt32.ofNat f.width = 0
  · refine ⟨.zeroWidth, .header ?_⟩
    rw [hwidth]
    exact he.header_zeroWidth _
  · refine ⟨.zeroHeight, .header ?_⟩
    rw [h.resolve_left hwidth]
    exact he.header_zeroHeight _ hwidth

/-- The header has no room for a side of `2 ^ 32` pixels. -/
theorem refused_of_long (he : e.Lawful) (h : f.Whole) (hheader : ¬f.FitsHeader) :
    ∃ cause, f.Refused e cause := by
  by_cases hzero : UInt32.ofNat f.width = 0 ∨ UInt32.ofNat f.height = 0
  · exact refused_of_zero he hzero
  · obtain ⟨hwidth, hheight⟩ := not_or.1 hzero
    have hless := low_area_lt h hheader
    have hdata := he.data_eq _ _ f.pixels hwidth hheight (Nat.lt_trans hless h.fits)
    rw [if_neg (Nat.ne_of_gt hless)] at hdata
    exact ⟨_, .data (he.header_ok _ _ hwidth hheight) hdata⟩

end Frame
end TapeTorus
