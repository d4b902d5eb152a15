import TapeTorus.ImageEncoder

/-!
# PNG files

Images of eight-bit red, green and blue without interlacing.  `encoder` stores the image data and
does not compress it; `read` reads what has been stored.
-/

namespace TapeTorus.Png

/-! ## Checksums -/

/-- Feeds one bit out of the CRC register. -/
def crcShift (c : UInt32) : UInt32 :=
  if c &&& 1 = 1 then (c >>> 1) ^^^ 0xedb88320 else c >>> 1

def crcByte (c : UInt32) (b : UInt8) : UInt32 :=
  (crcShift ∘ crcShift ∘ crcShift ∘ crcShift ∘ crcShift ∘ crcShift ∘ crcShift ∘ crcShift)
    (c ^^^ b.toUInt32)

def crc32 (bytes : List UInt8) : UInt32 := bytes.foldl crcByte 0xffffffff ^^^ 0xffffffff

/-- The Adler-32 sums after one more byte. -/
def adlerByte (sums : UInt32 × UInt32) (b : UInt8) : UInt32 × UInt32 :=
  let low := (sums.1 + b.toUInt32) % 65521
  (low, (sums.2 + low) % 65521)

def adler32 (bytes : List UInt8) : UInt32 :=
  let (low, high) := bytes.foldl adlerByte (1, 0)
  (high <<< 16) ||| low

/-! ## Layout -/

/-- The four bytes of a word, the most significant first. -/
def bigEndian (w : UInt32) : List UInt8 :=
  [(w >>> 24).toUInt8, (w >>> 16).toUInt8, (w >>> 8).toUInt8, w.toUInt8]

/-- The number that bytes stand for, the most significant first. -/
def number (bytes : List UInt8) : Nat := bytes.foldl (fun n b => n * 256 + b.toNat) 0

def signature : List UInt8 := [0x89, 0x50, 0x4e, 0x47, 0x0d, 0x0a, 0x1a, 0x0a]

/-- Eight bits for each of three colours, and the standard methods. -/
def format : List UInt8 := [8, 2, 0, 0, 0]

inductive ChunkType where
  | header
  | data
  | trailer
  deriving DecidableEq

def ChunkType.name : ChunkType → List UInt8
  | header => ['I', 'H', 'D', 'R'].map Char.toUInt8
  | data => ['I', 'D', 'A', 'T'].map Char.toUInt8
  | trailer => ['I', 'E', 'N', 'D'].map Char.toUInt8

/-- A chunk: the length of its data, its type, the data and their checksum. -/
def chunk (type : ChunkType) (data : List UInt8) : List UInt8 :=
  bigEndian (.ofNat data.length) ++ (type.name ++ (data ++ bigEndian (crc32 (type.name ++ data))))

/-- The number of bytes that a stored block has room for. -/
def blockSize : Nat := 65535

/-! ## Writing -/

/-- The rows of an image, each behind a byte that says it is not filtered. -/
def scanlines (stride : Nat) : (rows : Nat) → List UInt8 → List UInt8
  | 0, _ => []
  | rows + 1, pixels => 0 :: (pixels.take stride ++ scanlines stride rows (pixels.drop stride))

/-- A stored block, which may be the final one. -/
def block (final : Bool) (data : List UInt8) : List UInt8 :=
  (if final then 1 else 0) :: .ofNat data.length :: .ofNat (data.length / 256) ::
    .ofNat (blockSize - data.length) :: .ofNat ((blockSize - data.length) / 256) :: data

/-- The data in stored blocks, all of them full but the final one. -/
def blocks (data : List UInt8) : List (List UInt8) :=
  if _ : data.drop blockSize = [] then [block true data]
  else block false (data.take blockSize) :: blocks (data.drop blockSize)
termination_by data.length
decreasing_by
  rename_i hshort
  have hlong : blockSize < data.length := by
    apply Nat.lt_of_not_le
    intro hle
    exact hshort (List.drop_eq_nil_of_le hle)
  have hpos : 0 < blockSize := by decide
  rw [List.length_drop]
  omega

/-- The parts of a stream of stored data. -/
def parts (data : List UInt8) : List (List UInt8) :=
  [0x78, 0x01] :: (blocks data ++ [bigEndian (adler32 data)])

def head (width height : UInt32) : List UInt8 :=
  signature ++ chunk .header (bigEndian width ++ (bigEndian height ++ format))

/-- The chunks of the image data, one for each part. -/
def body (width height : UInt32) (pixels : List UInt8) : List UInt8 :=
  (parts (scanlines (3 * width.toNat) height.toNat pixels)).flatMap (chunk .data)

def tail : List UInt8 := chunk .trailer []

/-- Refuses pixels that are not three bytes for each place of an image. -/
def checkSize (width height : UInt32) (pixels : Array UInt8) : Except Error Unit := do
  let expected ← Fault.lift (Size.mul (3 * width.toNat) height.toNat)
  if pixels.size = expected then .ok () else .error (.image (.dataSize expected pixels.size))

def encoder : ImageEncoder where
  header width height :=
    if width = 0 then (#[], .error (.image .zeroWidth))
    else if height = 0 then (#[], .error (.image .zeroHeight))
    else ((head width height).toArray, .ok ())
  data width height pixels :=
    match checkSize width height pixels with
    | .ok () => ((body width height pixels.toList ++ tail).toArray, .ok ())
    | .error cause => (tail.toArray, .error cause)

/-! ## Reading -/

/-- The first `n` bytes, and those behind them. -/
def split? (n : Nat) (bytes : List UInt8) : Option (List UInt8 × List UInt8) :=
  if (bytes.take n).length = n then some (bytes.take n, bytes.drop n) else none

theorem length_of_split? {n : Nat} {bytes front back : List UInt8}
    (h : split? n bytes = some (front, back)) : n + back.length = bytes.length := by
  unfold split? at h
  split at h
  · rename_i hfront
    obtain ⟨rfl, rfl⟩ := Prod.mk.inj (Option.some.inj h)
    rw [List.length_take] at hfront
    rw [List.length_drop]
    omega
  · cases h

/-- The type and the data of the first chunk, and what is behind it. -/
def readChunk? (bytes : List UInt8) : Option ((List UInt8 × List UInt8) × List UInt8) := do
  let (length, bytes) ← split? 4 bytes
  let (type, bytes) ← split? 4 bytes
  let (data, bytes) ← split? (number length) bytes
  let (check, bytes) ← split? 4 bytes
  if check = bigEndian (crc32 (type ++ data)) then some ((type, data), bytes) else none

theorem length_of_readChunk? {bytes back : List UInt8} {content : List UInt8 × List UInt8}
    (h : readChunk? bytes = some (content, back)) : back.length < bytes.length := by
  simp only [readChunk?, Option.bind_eq_bind, Option.bind_eq_some_iff] at h
  obtain ⟨⟨length, b₁⟩, h₁, ⟨type, b₂⟩, h₂, ⟨data, b₃⟩, h₃, ⟨check, b₄⟩, h₄, h⟩ := h
  have hlength := length_of_split? h₁
  have htype := length_of_split? h₂
  have hdata := length_of_split? h₃
  have hcheck := length_of_split? h₄
  dsimp only at hlength htype hdata hcheck h
  split at h
  · obtain ⟨-, rfl⟩ := Prod.mk.inj (Option.some.inj h)
    omega
  · cases h

/-- The image data, from their first chunk to the end of the file. -/
def readData? (bytes : List UInt8) : Option (List UInt8) :=
  match _ : readChunk? bytes with
  | some ((type, data), back) =>
    if type = ChunkType.data.name then (readData? back).map (data ++ ·)
    else if type = ChunkType.trailer.name ∧ data = [] ∧ back = [] then some []
    else none
  | none => none
termination_by bytes.length
decreasing_by exact length_of_readChunk? ‹_›

/-- The data in the blocks up to the final one, and what is behind it. -/
def readBlocks? : List UInt8 → Option (List UInt8 × List UInt8)
  | final :: low :: high :: low' :: high' :: bytes =>
    let length := low.toNat + 256 * high.toNat
    if low'.toNat + 256 * high'.toNat + length = blockSize ∧
        (bytes.take length).length = length then
      if final = 1 then some (bytes.take length, bytes.drop length)
      else if final = 0 then
        (readBlocks? (bytes.drop length)).map fun (data, back) => (bytes.take length ++ data, back)
      else none
    else none
  | _ => none
termination_by bytes => bytes.length

def readStream? : List UInt8 → Option (List UInt8)
  | 0x78 :: 0x01 :: bytes =>
    match readBlocks? bytes with
    | some (data, check) => if check = bigEndian (adler32 data) then some data else none
    | none => none
  | _ => none

/-- The pixels of unfiltered rows. -/
def readRows? (stride : Nat) : (rows : Nat) → List UInt8 → Option (List UInt8)
  | 0, [] => some []
  | rows + 1, 0 :: bytes =>
    if (bytes.take stride).length = stride then
      (readRows? stride rows (bytes.drop stride)).map (bytes.take stride ++ ·)
    else none
  | _, _ => none

/-- The image in a file. -/
def read (file : Array UInt8) : Option Frame := do
  let (mark, bytes) ← split? 8 file.toList
  let ((type, header), bytes) ← readChunk? bytes
  let (width, header) ← split? 4 header
  let (height, header) ← split? 4 header
  if mark = signature ∧ type = ChunkType.header.name ∧ header = format then do
    let data ← readStream? (← readData? bytes)
    let pixels ← readRows? (3 * number width) (number height) data
    return ⟨number width, number height, pixels.toArray⟩
  else none

end TapeTorus.Png
