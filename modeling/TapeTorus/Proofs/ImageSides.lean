import TapeTorus.Proofs.Rendering
import TapeTorus.Proofs.StoredImages

/-!
# Sides of images

The header of an image has 32 bits for each side, and only the low bits of a side are written.  No
image comes of it whose sides are not those of the frame: the low bits alone do not ask for as many
pixels as a rendered frame has.
-/

namespace TapeTorus

namespace Frame

variable {e : ImageEncoder} {f : Frame} {cells : Array UInt32}
  {tapeLength gridWidth gridHeight : Nat}

/-- Both sides are positive and can be written in 32 bits. -/
def Writable (f : Frame) : Prop :=
  (0 < f.width ∧ f.width < 2 ^ 32) ∧ 0 < f.height ∧ f.height < 2 ^ 32

private theorem whole_of_render (h : render cells tapeLength gridWidth gridHeight = .ok f)
    (hwidth : 0 < f.width) (hheight : 0 < f.height) : f.Whole := by
  obtain ⟨side, -, -, hcells, hfits, hshows⟩ := shows_of_render h
  have hcount : f.pixels.size = cells.size * 3 := by
    rw [hshows.size_eq, hshows.width_eq, hshows.height_eq, hcells]
    ring
  exact ⟨hwidth, hheight, hshows.size_eq, hcount ▸ hfits⟩

private theorem refused_of_empty (he : e.Lawful) (h : f.width = 0 ∨ f.height = 0) :
    ∃ cause, f.Refused e cause := by
  apply refused_of_zero he
  rcases h with hzero | hzero
  · left
    rw [hzero]
    rfl
  · right
    rw [hzero]
    rfl

private theorem accepted_or_refused (he : e.Lawful)
    (h : render cells tapeLength gridWidth gridHeight = .ok f) :
    (f.Writable ∧ f.Accepted e) ∨ (¬f.Writable ∧ ∃ cause, f.Refused e cause) := by
  by_cases hpos : 0 < f.width ∧ 0 < f.height
  · have hwhole := whole_of_render h hpos.1 hpos.2
    by_cases hheader : f.FitsHeader
    · exact .inl ⟨⟨⟨hpos.1, hheader.1⟩, hpos.2, hheader.2⟩, accepted_of_fits he hwhole hheader⟩
    · refine .inr ⟨?_, refused_of_long he hwhole hheader⟩
      rintro ⟨⟨-, hwidth⟩, -, hheight⟩
      exact hheader ⟨hwidth, hheight⟩
  · refine .inr ⟨?_, refused_of_empty he (by omega)⟩
    rintro ⟨⟨hwidth, -⟩, hheight, -⟩
    exact hpos ⟨hwidth, hheight⟩

private theorem sent_of_accepted (h : f.Accepted e) (hheader : f.FitsHeader) :
    ∃ width height : UInt32, width.toNat = f.width ∧ height.toNat = f.height ∧
      (e.header width height).2 = .ok () ∧ (e.data width height f.pixels).2 = .ok () ∧
      (f.writeImage e).1 = (e.header width height).1 ++ (e.data width height f.pixels).1 := by
  refine ⟨.ofNat f.width, .ofNat f.height, UInt32.toNat_ofNat_of_lt' hheader.1,
    UInt32.toNat_ofNat_of_lt' hheader.2, h.header_ok, h.data_ok, ?_⟩
  rw [h.writeImage_eq]
  rfl

/-- A rendered frame is written just if both its sides are positive and below `2 ^ 32`.  Then the
encoder has got both sides as they are, and all pixels; else it has failed.  A reader of its files
gets back the frame, or no image. -/
theorem image_of_rendered (he : e.Lawful)
    (h : render cells tapeLength gridWidth gridHeight = .ok f) :
    ((f.writeImage e).2 = .ok () ↔
      (0 < f.width ∧ f.width < 2 ^ 32) ∧ 0 < f.height ∧ f.height < 2 ^ 32) ∧
    ((f.writeImage e).2 = .ok () → ∃ width height : UInt32,
      width.toNat = f.width ∧ height.toNat = f.height ∧
      (e.header width height).2 = .ok () ∧ (e.data width height f.pixels).2 = .ok () ∧
      (f.writeImage e).1 = (e.header width height).1 ++ (e.data width height f.pixels).1) ∧
    (∀ cause, (f.writeImage e).2 = .error cause → ∃ imageCause, cause = .image imageCause) ∧
    ∀ read, e.ReadBy read →
      ((f.writeImage e).2 = .ok () → read (f.writeImage e).1 = some f) ∧
      ∀ cause, (f.writeImage e).2 = .error cause → read (f.writeImage e).1 = none := by
  rcases accepted_or_refused he h with ⟨hwritable, haccepted⟩ | ⟨hwritable, cause, hrefused⟩
  · have hheader : f.FitsHeader := ⟨hwritable.1.2, hwritable.2.2⟩
    have hok := haccepted.result_eq
    refine ⟨⟨fun _ => hwritable, fun _ => hok⟩, fun _ => sent_of_accepted haccepted hheader, ?_,
      fun read hread => ⟨fun _ => haccepted.read_eq hheader hread, ?_⟩⟩
    · rw [hok]
      rintro _ ⟨⟩
    · rw [hok]
      rintro _ ⟨⟩
  · have herror := hrefused.result_eq
    refine ⟨⟨?_, fun hsides => absurd hsides hwritable⟩, ?_, ?_,
      fun read hread => ⟨?_, fun _ _ => hrefused.read_eq hread⟩⟩
    · rw [herror]
      rintro ⟨⟩
    · rw [herror]
      rintro ⟨⟩
    · rw [herror]
      rintro _ ⟨⟩
      exact ⟨cause, rfl⟩
    · rw [herror]
      rintro ⟨⟩

/-- Six tapes of four cells are read back from the file; and a grid of `2 ^ 32` columns without
rows, the low bits of whose sides are both zero, leaves no image. -/
theorem image_of_rendered_edges :
    (∃ f, render numbered 4 3 2 = .ok f ∧ f.width = 6 ∧ f.height = 4 ∧
      (f.writeImage Png.encoder).2 = .ok () ∧
      Png.read (f.writeImage Png.encoder).1 = some f) ∧
    ∃ f cause, render #[] 4 (2 ^ 32) 0 = .ok f ∧
      (f.writeImage Png.encoder).2 = .error (.image cause) ∧
      Png.read (f.writeImage Png.encoder).1 = none := by
  have hroot : tapeSide (2 * 2) = .ok (some 2) := tapeSide_eq_some (by decide)
  constructor
  · have hsize : numbered.size = 2 * 3 * (2 * 2) := rfl
    obtain ⟨f, hf, hshows⟩ :=
      render_shows hroot (by decide) (by decide) (by decide) hsize (by decide)
    have hwidth : f.width = 6 := hshows.width_eq
    have hheight : f.height = 4 := hshows.height_eq
    obtain ⟨hok, -, -, hreaders⟩ := image_of_rendered Png.encoder_lawful hf
    have hwritten := hok.2 (by omega)
    exact ⟨f, hf, hwidth, hheight, hwritten, (hreaders _ Png.encoder_readBy).1 hwritten⟩
  · have hempty : (#[] : Array UInt32).size = 0 * 2 ^ 32 * (2 * 2) := rfl
    obtain ⟨f, hf, hshows⟩ := render_of_sizes hroot (by decide) hempty (by decide) (by decide)
      (by decide) (by decide)
    have hheight : f.height = 0 := hshows.height_eq
    obtain ⟨hok, -, hrefused, hreaders⟩ := image_of_rendered Png.encoder_lawful hf
    cases hresult : (f.writeImage Png.encoder).2 with
    | ok u =>
      have hpos := (hok.1 hresult).2.1
      omega
    | error cause =>
      obtain ⟨imageCause, rfl⟩ := hrefused cause hresult
      exact ⟨f, imageCause, hf, hresult, (hreaders _ Png.encoder_readBy).2 _ hresult⟩

end Frame
end TapeTorus
