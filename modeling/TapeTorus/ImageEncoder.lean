import TapeTorus.Frame

/-!
# Encoding images

A frame is written by an encoder, which takes sides of 32 bits.
-/

namespace TapeTorus

/-- An encoder for images of eight-bit red, green and blue.  Each step gives the bytes that it
writes, and its error if it fails.  What has been written stays written. -/
structure ImageEncoder where
  /-- Begins an image of the given width and height. -/
  header : UInt32 → UInt32 → Array UInt8 × Except Error Unit
  /-- Fills an image of the given width and height that has been begun, and ends it. -/
  data : UInt32 → UInt32 → Array UInt8 → Array UInt8 × Except Error Unit

/-- Writes the image of a frame.  The encoder gets the low 32 bits of each side. -/
def Frame.writeImage (e : ImageEncoder) (f : Frame) : Array UInt8 × Except Error Unit :=
  let width := UInt32.ofNat f.width
  let height := UInt32.ofNat f.height
  match e.header width height with
  | (bytes, .error cause) => (bytes, .error cause)
  | (bytes, .ok ()) =>
    let (more, result) := e.data width height f.pixels
    (bytes ++ more, result)

end TapeTorus
