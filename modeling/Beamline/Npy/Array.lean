import Beamline.Shape
import Beamline.Npy.Header

/-!
# Arrays — shapes with values, from and to bytes

Reading asks for one element type at a time (`readAs`) and checks in a fixed order: header, size of
the shape, element type, amount of data. Nothing about the number of axes is checked here; that is
the business of whoever wants a particular one.

Writing produces the one form the analysis saves: a vector of binary64 values, version 1.0, lowest
byte first. Its description is padded to a length that does not depend on the vector, so the data
of every saved file starts at byte 96.
-/

set_option autoImplicit false

namespace Beamline
namespace Npy

/-! ## Reading -/

/-- Cuts `count` words of `width` bytes. -/
def words (width : Nat) : Nat → List UInt8 → List (List UInt8)
  | 0, _ => []
  | count + 1, bytes => bytes.take width :: words width count (bytes.drop width)

theorem length_words (width count : Nat) (bytes : List UInt8) :
    (words width count bytes).length = count := by
  induction count generalizing bytes with
  | zero => rfl
  | succ n ih => simp [words, ih]

/-- An array of values: as many as its shape has elements. -/
structure Contents where
  shape : List Nat
  columnMajor : Bool
  values : Array Binary64
  size_eq : values.size = Shape.elements shape

/-- The array in a file whose elements are of type `e`. -/
def readAs (e : Element) (bytes : List UInt8) : Except Fault Contents := do
  let (header, data) ← readHeader bytes
  if ! Shape.fits e.width header.shape then throw .lengthOverflow
  let some order := e.order? header.descriptor
    | throw .otherElement
  let needed := Shape.elements header.shape * e.width
  let held := data.length
  if held < needed then throw .missingData
  if needed < held then throw (.extraBytes (held - needed))
  let cut := words e.width (Shape.elements header.shape) data
  return {
    shape := header.shape
    columnMajor := header.columnMajor
    values := (cut.map fun w => e.value (order.word w)).toArray
    size_eq := by simp [cut, length_words] }

/-! ## Writing -/

/-- Bytes of a saved description. -/
def descriptionLength : Nat := 86

/-- The description of a vector of binary64 values. -/
def vectorDescription (length : Nat) : String :=
  "\x7b'descr': '<f8', 'fortran_order': False, 'shape': (" ++ toString length ++ ",), \x7d"

def asciiBytes (s : String) : List UInt8 := s.toList.map fun c => UInt8.ofNat c.toNat

def writeVector (values : List Binary64) : List UInt8 :=
  let description := asciiBytes (vectorDescription values.length)
  let padding := List.replicate (descriptionLength - 1 - description.length) 0x20
  magic ++ [1, 0] ++ littleEndian 2 descriptionLength ++ description ++ padding ++ [0x0A] ++
    values.flatMap fun x => littleEndian 8 x.toBits

end Npy
end Beamline
