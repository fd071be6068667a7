import Beamline.Npy.Element

/-!
# Pictures — a canvas of a given size

A picture is a PNG file: a signature, and chunks that each carry a checksum of their own. What is
painted on it is the business of a renderer; the picture made here is a canvas of one colour. With a
palette whose only colour is white and one bit per pixel, every byte of its pixel data is zero, row
filters included; so the compressed data is one literal byte and repetitions of it, and the size of
the file grows with the picture only by a small fraction.
-/

set_option autoImplicit false

namespace Beamline
namespace Png

def signature : List UInt8 := [0x89, 0x50, 0x4E, 0x47, 0x0D, 0x0A, 0x1A, 0x0A]

/-- The number in some bytes, highest first. -/
def number (bytes : List UInt8) : Nat := Npy.ByteOrder.big.word bytes

/-- A number in four bytes, highest first. -/
def word (n : Nat) : List UInt8 := (Npy.littleEndian 4 n).reverse

/-! ## Checksums -/

/-- One bit of the cyclic checksum: a shift, and the generating polynomial, its highest power in the
lowest bit, when a one is shifted out. -/
def crcBit (c : UInt32) : UInt32 :=
  if c &&& 1 = 1 then (c >>> 1) ^^^ 0xEDB88320 else c >>> 1

def crcByte (c : UInt32) (b : UInt8) : UInt32 := Nat.repeat crcBit 8 (c ^^^ b.toUInt32)

def crc (bytes : List UInt8) : UInt32 := bytes.foldl crcByte 0xFFFFFFFF ^^^ 0xFFFFFFFF

/-- The checksum of `n` zero bytes. Its low half, one plus the sum of the bytes, stays one; its high
half adds the low half up once a byte, modulo the largest prime below `2 ^ 16`. -/
def zerosChecksum (n : Nat) : Nat := n % 65521 * 65536 + 1

/-! ## Compression of zeros -/

/-- Packs bits into bytes, the first bit lowest; the last byte is filled up with zeros. -/
def packBits : List Bool → List UInt8
  | [] => []
  | bits@(_ :: _) =>
    let byte := (bits.take 8).foldr (fun b n => b.toNat + 2 * n) 0
    UInt8.ofNat byte :: packBits (bits.drop 8)
termination_by bits => bits.length

/-- The code of a zero byte. -/
def zeroCode : List Bool := [false, false, true, true, false, false, false, false]

/-- The code that repeats the byte before 258 times. -/
def repeatCode : List Bool :=
  [true, true, false, false, false, true, false, true, false, false, false, false, false]

/-- The code that ends a block. -/
def endCode : List Bool := [false, false, false, false, false, false, false]

/-- One final block of fixed codes that stands for `n` zero bytes. -/
def zerosBlock (n : Nat) : List Bool :=
  let repeats := (n - 1) / 258
  [true, true, false] ++ zeroCode ++ (List.replicate repeats repeatCode).flatten ++
    (List.replicate (n - 1 - repeats * 258) zeroCode).flatten ++ endCode

/-- A compressed stream that stands for `n` zero bytes, `n` at least one. -/
def compressedZeros (n : Nat) : List UInt8 :=
  [0x78, 0x01] ++ packBits (zerosBlock n) ++ word (zerosChecksum n)

/-! ## Pictures -/

/-- A chunk by its four letters and its data. -/
def chunk (kind : String) (data : List UInt8) : List UInt8 :=
  let body := kind.toUTF8.data.toList ++ data
  word data.length ++ body ++ word (crc body).toNat

/-- The header: width, height, one bit per pixel into a palette. -/
def header (width height : Nat) : List UInt8 := word width ++ word height ++ [1, 3, 0, 0, 0]

/-- The bytes of the pixels before they are compressed. Each row is a filter byte and its pixels,
eight to a byte. -/
def blankSize (width height : Nat) : Nat := height * (1 + (width + 7) / 8)

/-- A white picture. -/
def blank (width height : Nat) : List UInt8 :=
  signature ++ chunk "IHDR" (header width height) ++ chunk "PLTE" [0xFF, 0xFF, 0xFF] ++
    chunk "IDAT" (compressedZeros (blankSize width height)) ++ chunk "IEND" []

/-- Whether a white picture has pixels at all, and not more than fit into one chunk. -/
def Fits (width height : Nat) : Prop :=
  0 < width ∧ 0 < height ∧ blankSize width height < 2 ^ 29

instance (width height : Nat) : Decidable (Fits width height) :=
  inferInstanceAs (Decidable (_ ∧ _))

/-- The width and height of a picture, if the bytes start like one. -/
def size? (bytes : List UInt8) : Option (Nat × Nat) :=
  if bytes.take 8 = signature ∧ 24 ≤ bytes.length then
    some (number ((bytes.drop 16).take 4), number ((bytes.drop 20).take 4))
  else none

end Png
end Beamline
