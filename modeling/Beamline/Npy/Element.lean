import Beamline.Binary64.Bits
import Beamline.Npy.Literal

/-!
# Elements — the numeric types an array may hold

An array names its element type by a short code. Ten of them are numbers that become binary64
values: two floating point formats, which widen exactly, and eight integers, which are rounded once
when they need more than 53 bits. A descriptor belongs to at most one of the ten (`order?` answers
for one type at a time), so which type is asked first never matters.

A multi-byte element must say its byte order. Single-byte elements have none to say, and may be
written with a bar or bare, or by their one-letter code.
-/

set_option autoImplicit false

namespace Beamline
namespace Npy

/-! ## Words -/

inductive ByteOrder where
  | little
  | big
deriving DecidableEq, Repr

/-- The number whose digits in base 256, lowest first, are the bytes. -/
def ofLittleEndian : List UInt8 → Nat
  | [] => 0
  | b :: bs => b.toNat + 256 * ofLittleEndian bs

/-- The lowest `width` base-256 digits of a number, lowest first. -/
def littleEndian : Nat → Nat → List UInt8
  | 0, _ => []
  | width + 1, n => UInt8.ofNat (n % 256) :: littleEndian width (n / 256)

/-- The number that a word's bytes make in a byte order. -/
def ByteOrder.word : ByteOrder → List UInt8 → Nat
  | little, bytes => ofLittleEndian bytes
  | big, bytes => ofLittleEndian bytes.reverse

/-! ## Types -/

inductive Element where
  | float64
  | float32
  | int64
  | int32
  | int16
  | int8
  | uint64
  | uint32
  | uint16
  | uint8
deriving DecidableEq, Repr

namespace Element

/-- Every numeric element type, in the order they are tried. -/
def all : List Element :=
  [float64, float32, int64, int32, int16, int8, uint64, uint32, uint16, uint8]

def width : Element → Nat
  | float64 | int64 | uint64 => 8
  | float32 | int32 | uint32 => 4
  | int16 | uint16 => 2
  | int8 | uint8 => 1

/-- The descriptors of an element type, each with the byte order it means. -/
def descriptors : Element → List (String × ByteOrder)
  | float64 => [("<f8", .little), (">f8", .big)]
  | float32 => [("<f4", .little), (">f4", .big)]
  | int64 => [("<i8", .little), (">i8", .big)]
  | int32 => [("<i4", .little), (">i4", .big)]
  | int16 => [("<i2", .little), (">i2", .big)]
  | int8 => [("|i1", .little), ("i1", .little), ("b", .little)]
  | uint64 => [("<u8", .little), (">u8", .big)]
  | uint32 => [("<u4", .little), (">u4", .big)]
  | uint16 => [("<u2", .little), (">u2", .big)]
  | uint8 => [("|u1", .little), ("u1", .little), ("B", .little)]

/-- The byte order that a descriptor means for this type, if it is one of this type's. -/
def order? (e : Element) : Literal → Option ByteOrder
  | .string cs => e.descriptors.lookup (String.ofList cs)
  | _ => none

/-- A two's complement integer of so many bytes. -/
def signedWord (width word : Nat) : Int :=
  if word < 2 ^ (8 * width - 1) then (word : Int) else (word : Int) - (2 ^ (8 * width) : Nat)

/-- The binary64 value of an element's word. -/
def value (e : Element) (word : Nat) : Binary64 :=
  match e with
  | float64 => FloatFormat.binary64.decode word
  | float32 => FloatFormat.binary32.decode word
  | int64 | int32 | int16 | int8 => Binary64.ofInt (signedWord e.width word)
  | uint64 | uint32 | uint16 | uint8 => Binary64.ofNat word

end Element
end Npy
end Beamline
