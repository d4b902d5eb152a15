import TapeTorus.Png
import TapeTorus.Proofs.Encoders

/-!
# Stored images

What `Png.encoder` writes is read back by `Png.read`, part by part: numbers, chunks, stored blocks
and rows.  A file that has been given up holds no image.
-/

namespace TapeTorus.Png

/-! ## Bytes -/

private theorem length_bigEndian (w : UInt32) : (bigEndian w).length = 4 := rfl

private theorem number_bigEndian (w : UInt32) : number (bigEndian w) = w.toNat := by
  have hdigits : number (bigEndian w) =
      (((w >>> 24).toUInt8.toNat * 256 + (w >>> 16).toUInt8.toNat) * 256 +
        (w >>> 8).toUInt8.toNat) * 256 + w.toUInt8.toNat := by
    simp [number, bigEndian]
  have hw := w.toNat_lt
  rw [hdigits]
  simp only [UInt32.toNat_toUInt8, UInt32.toNat_shiftRight, Nat.shiftRight_eq_div_pow,
    UInt32.reduceToNat, Nat.reduceMod, Nat.reducePow]
  omega

private theorem split?_append {n : Nat} {front : List UInt8} (h : front.length = n)
    (back : List UInt8) : split? n (front ++ back) = some (front, back) := by
  subst h
  rw [split?, List.take_left, List.drop_left, if_pos rfl]

/-! ## Chunks -/

private theorem length_name (type : ChunkType) : type.name.length = 4 := by
  cases type <;> rfl

private theorem readChunk?_chunk {type : ChunkType} {data : List UInt8} (h : data.length < 2 ^ 32)
    (back : List UInt8) :
    readChunk? (chunk type data ++ back) = some ((type.name, data), back) := by
  have hlength : number (bigEndian (.ofNat data.length)) = data.length := by
    rw [number_bigEndian, UInt32.toNat_ofNat_of_lt' h]
  simp only [readChunk?, chunk, List.append_assoc]
  rw [split?_append (length_bigEndian _)]
  dsimp only [Option.bind_eq_bind, Option.bind_some]
  rw [split?_append (length_name type)]
  dsimp only [Option.bind_some]
  rw [split?_append hlength.symm]
  dsimp only [Option.bind_some]
  rw [split?_append (length_bigEndian _)]
  dsimp only [Option.bind_some]
  rw [if_pos rfl]

private theorem readData?_tail : readData? tail = some [] := by
  have hchunk : readChunk? tail = some ((ChunkType.trailer.name, []), []) := by
    rw [← List.append_nil tail]
    exact readChunk?_chunk (by decide) []
  rw [readData?]
  split
  · rename_i heq
    rw [hchunk] at heq
    cases heq
    rfl
  · rename_i heq
    rw [hchunk] at heq
    cases heq

private theorem readData?_chunk {data : List UInt8} (h : data.length < 2 ^ 32) (back : List UInt8) :
    readData? (chunk .data data ++ back) = (readData? back).map (data ++ ·) := by
  rw [readData?]
  split
  · rename_i heq
    rw [readChunk?_chunk h] at heq
    cases heq
    rw [if_pos rfl]
  · rename_i heq
    rw [readChunk?_chunk h] at heq
    cases heq

private theorem readData?_chunks {parts : List (List UInt8)}
    (h : ∀ part ∈ parts, part.length < 2 ^ 32) :
    readData? (parts.flatMap (chunk .data) ++ tail) = some parts.flatten := by
  induction parts with
  | nil => exact readData?_tail
  | cons part parts ih =>
    rw [List.flatMap_cons, List.append_assoc, readData?_chunk (h part (by simp)),
      ih fun part hpart => h part (by simp [hpart])]
    rfl

/-! ## Stored blocks -/

private theorem length_low_high {n : Nat} (h : n ≤ blockSize) :
    (UInt8.ofNat n).toNat + 256 * (UInt8.ofNat (n / 256)).toNat = n := by
  rw [UInt8.toNat_ofNat', UInt8.toNat_ofNat']
  unfold blockSize at h
  omega

private theorem length_block (final : Bool) (data : List UInt8) :
    (block final data).length = data.length + 5 := rfl

private theorem readBlocks?_block {final : Bool} {data : List UInt8} (h : data.length ≤ blockSize)
    (back : List UInt8) :
    readBlocks? (block final data ++ back) =
      if final then some (data, back)
      else (readBlocks? back).map fun (more, back) => (data ++ more, back) := by
  have hlength := length_low_high h
  have hrest := length_low_high (Nat.sub_le blockSize data.length)
  simp only [block, List.cons_append]
  rw [readBlocks?]
  dsimp only
  rw [hlength, hrest, Nat.sub_add_cancel h, List.take_left, List.drop_left, if_pos ⟨rfl, rfl⟩]
  cases final <;> rfl

/-- The blocks are read up to the final one, which is the last. -/
theorem readBlocks?_blocks (data back : List UInt8) :
    readBlocks? ((blocks data).flatten ++ back) = some (data, back) := by
  induction data using blocks.induct with
  | case1 data hshort =>
    have hlength : data.length ≤ blockSize := List.drop_eq_nil_iff.1 hshort
    rw [blocks, dif_pos hshort, List.flatten_singleton, readBlocks?_block hlength, if_pos rfl]
  | case2 data hlong ih =>
    have hlength : (data.take blockSize).length ≤ blockSize := List.length_take_le _ _
    rw [blocks, dif_neg hlong, List.flatten_cons, List.append_assoc,
      readBlocks?_block hlength, ih, if_neg Bool.false_ne_true, Option.map_some]
    dsimp only
    rw [List.take_append_drop]

private theorem length_of_mem_blocks {data part : List UInt8} (h : part ∈ blocks data) :
    part.length ≤ blockSize + 5 := by
  induction data using blocks.induct with
  | case1 data hshort =>
    have hlength : data.length ≤ blockSize := List.drop_eq_nil_iff.1 hshort
    rw [blocks, dif_pos hshort, List.mem_singleton] at h
    rw [h, length_block]
    omega
  | case2 data hlong ih =>
    have hlength : (data.take blockSize).length ≤ blockSize := List.length_take_le _ _
    rw [blocks, dif_neg hlong, List.mem_cons] at h
    rcases h with rfl | h
    · rw [length_block]
      omega
    · exact ih h

private theorem length_of_mem_parts {data part : List UInt8} (h : part ∈ parts data) :
    part.length < 2 ^ 32 := by
  rw [parts, List.mem_cons, List.mem_append, List.mem_singleton] at h
  rcases h with rfl | h | rfl
  · decide
  · exact Nat.lt_of_le_of_lt (length_of_mem_blocks h) (by decide)
  · rw [length_bigEndian]
    decide

private theorem readStream?_parts (data : List UInt8) :
    readStream? (parts data).flatten = some data := by
  have hblocks := readBlocks?_blocks data (bigEndian (adler32 data))
  rw [parts, List.flatten_cons, List.flatten_append, List.flatten_singleton]
  simp only [List.cons_append, List.nil_append, readStream?]
  rw [hblocks]
  exact if_pos rfl

/-! ## Rows -/

private theorem readRows?_scanlines {stride rows : Nat} {pixels : List UInt8}
    (h : pixels.length = stride * rows) :
    readRows? stride rows (scanlines stride rows pixels) = some pixels := by
  induction rows generalizing pixels with
  | zero =>
    rw [List.eq_nil_of_length_eq_zero h]
    rfl
  | succ rows ih =>
    rw [Nat.mul_succ] at h
    have hrow : (pixels.take stride).length = stride := by
      rw [List.length_take]
      omega
    have hrest : (pixels.drop stride).length = stride * rows := by
      rw [List.length_drop]
      omega
    rw [scanlines, readRows?, List.take_left' hrow, List.drop_left' hrow, if_pos hrow, ih hrest,
      Option.map_some, List.take_append_drop]

/-! ## Files -/

variable {width height : UInt32}

private theorem read_head (width height : UInt32) (bytes : List UInt8) :
    read (head width height ++ bytes).toArray = (do
      let data ← readStream? (← readData? bytes)
      let pixels ← readRows? (3 * width.toNat) height.toNat data
      return ⟨width.toNat, height.toNat, pixels.toArray⟩) := by
  have hmark : signature.length = 8 := rfl
  have hheader : (bigEndian width ++ (bigEndian height ++ format)).length < 2 ^ 32 := by
    show 13 < 2 ^ 32
    decide
  simp only [read, head, List.append_assoc]
  rw [split?_append hmark]
  dsimp only [Option.bind_eq_bind, Option.bind_some]
  rw [readChunk?_chunk hheader]
  dsimp only [Option.bind_some]
  rw [split?_append (length_bigEndian width)]
  dsimp only [Option.bind_some]
  rw [split?_append (length_bigEndian height)]
  dsimp only [Option.bind_some]
  rw [if_pos ⟨rfl, rfl, rfl⟩, number_bigEndian, number_bigEndian]

private theorem read_body {pixels : Array UInt8}
    (h : pixels.size = 3 * width.toNat * height.toNat) :
    read (head width height ++ (body width height pixels.toList ++ tail)).toArray =
      some ⟨width.toNat, height.toNat, pixels⟩ := by
  rw [read_head, body, readData?_chunks fun _ => length_of_mem_parts]
  dsimp only [Option.bind_eq_bind, Option.bind_some]
  rw [readStream?_parts]
  dsimp only [Option.bind_some]
  rw [readRows?_scanlines h]
  rfl

/-- A file without image data holds no image. -/
theorem read_tail (width height : UInt32) :
    read (head width height ++ tail).toArray = none := by
  rw [read_head, readData?_tail]
  rfl

/-! ## The encoder -/

private theorem checkSize_eq {pixels : Array UInt8}
    (h : 3 * width.toNat * height.toNat < Size.limit) :
    checkSize width height pixels =
      if pixels.size = 3 * width.toNat * height.toNat then .ok ()
      else .error (.image (.dataSize (3 * width.toNat * height.toNat) pixels.size)) := by
  rw [checkSize, Size.mul_eq_ok h, Fault.lift_ok]
  rfl

private theorem size_of_checkSize {pixels : Array UInt8}
    (h : checkSize width height pixels = .ok ()) :
    pixels.size = 3 * width.toNat * height.toNat := by
  unfold checkSize at h
  obtain ⟨expected, hexpected, hsize⟩ := bind_eq_ok_iff.1 h
  obtain ⟨-, rfl⟩ := Size.mul_eq_ok_iff.1 (Fault.lift_eq_ok_iff.1 hexpected)
  split at hsize
  · assumption
  · cases hsize

private theorem header_eq (width height : UInt32) :
    encoder.header width height =
      if width = 0 then (#[], .error (.image .zeroWidth))
      else if height = 0 then (#[], .error (.image .zeroHeight))
      else ((head width height).toArray, .ok ()) := rfl

private theorem header_eq_of_ok (h : (encoder.header width height).2 = .ok ()) :
    (encoder.header width height).1 = (head width height).toArray := by
  rw [header_eq] at h ⊢
  split at h
  · cases h
  · split at h
    · cases h
    · rw [if_neg ‹_›, if_neg ‹_›]

private theorem header_eq_of_error {cause : Error}
    (h : (encoder.header width height).2 = .error cause) :
    (encoder.header width height).1 = #[] := by
  rw [header_eq] at h ⊢
  split at h
  · rw [if_pos ‹_›]
  · split at h
    · rw [if_neg ‹_›, if_pos ‹_›]
    · cases h

private theorem data_eq_ok {pixels : Array UInt8} (h : checkSize width height pixels = .ok ()) :
    encoder.data width height pixels =
      ((body width height pixels.toList ++ tail).toArray, .ok ()) := by
  unfold encoder
  dsimp only
  rw [h]

private theorem data_eq_error {pixels : Array UInt8} {cause : Error}
    (h : checkSize width height pixels = .error cause) :
    encoder.data width height pixels = (tail.toArray, .error cause) := by
  unfold encoder
  dsimp only
  rw [h]

private theorem data_result (width height : UInt32) (pixels : Array UInt8) :
    (encoder.data width height pixels).2 = checkSize width height pixels := by
  cases h : checkSize width height pixels with
  | ok u => rw [data_eq_ok h]
  | error cause => rw [data_eq_error h]

theorem encoder_lawful : encoder.Lawful where
  header_zeroWidth _ := rfl
  header_zeroHeight width hwidth := by
    rw [header_eq, if_neg hwidth]
    rfl
  header_ok width height hwidth hheight := by
    rw [header_eq, if_neg hwidth, if_neg hheight]
  data_eq width height pixels _ _ hfits := by
    rw [data_result, checkSize_eq hfits]

theorem encoder_readBy : encoder.ReadBy read where
  read_file width height pixels hheader hdata := by
    rw [data_result] at hdata
    rw [ImageEncoder.file, header_eq_of_ok hheader, data_eq_ok hdata, List.append_toArray]
    exact read_body (size_of_checkSize hdata)
  read_header width height cause hheader := by
    rw [header_eq_of_error hheader]
    rfl
  read_refused width height pixels cause hheader hdata := by
    rw [data_result] at hdata
    rw [ImageEncoder.file, header_eq_of_ok hheader, data_eq_error hdata, List.append_toArray]
    exact read_tail width height

end TapeTorus.Png
