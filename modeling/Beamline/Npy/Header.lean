import Beamline.Text.Utf8
import Beamline.Npy.Element

/-!
# Headers — what an array file says about itself

A file opens with a magic string, a version, the length of its description and the description: one
literal, a dictionary of element type, memory layout and shape, closed by a line feed. Keys are
taken in the order they stand, so the first bad one is the one reported; a key that is given twice
counts as it stands last.

Every way a file can fail has its own `Fault`, header and data alike, because the data's faults can
only arise once the header is good and are reported the same way.
-/

set_option autoImplicit false

namespace Beamline
namespace Npy

/-! ## Faults -/

/-- Why a file is not the array that was asked for. -/
inductive Fault where
  /-- The file ends inside its header. -/
  | endsInHeader
  | magic
  | version (major minor : Nat)
  /-- A character that the file's version does not allow. -/
  | notAscii
  | notUtf8 (fault : Utf8.Fault)
  /-- The description does not end in a line feed. -/
  | missingNewline
  | notLiteral
  | notDict (value : Literal)
  | unknownKey (key : Literal)
  | missingKey (key : String)
  | illegalValue (key : String) (value : Literal)
  /-- The shape has more elements than can be addressed. -/
  | lengthOverflow
  /-- The file holds another element type than the one asked for. -/
  | otherElement
  | missingData
  | extraBytes (count : Nat)
  /-- The file holds another number of axes than the one asked for. -/
  | otherRank (rank : Nat)
deriving Inhabited

/-- What a fault of the header adds to the words that announce one. -/
def Fault.headerText? : Fault → Option String
  | .magic => some "start does not match magic string"
  | .version major minor => some s!"unknown version number: {major}.{minor}"
  | .notAscii =>
    some ("non-ascii in array format string; this is not supported in .npy format versions " ++
      "1.0 and 2.0")
  | .notUtf8 fault => some s!"error parsing array format string as UTF-8: {fault.text}"
  | .missingNewline => some "newline missing at end of header"
  | .notLiteral => some "error parsing metadata dict"
  | .notDict value => some s!"metadata is not a dict: {value.text}"
  | .unknownKey key => some s!"unknown key: {key.text}"
  | .missingKey key => some s!"missing key: {key}"
  | .illegalValue key value => some s!"illegal value for key {key}: {value.text}"
  | _ => none

/-- The text of a fault. A file that ends early, or that holds another type, has none of its own. -/
def Fault.text? (f : Fault) : Option String :=
  match f.headerText? with
  | some text => some ("error parsing header: " ++ text)
  | none =>
    match f with
    | .lengthOverflow => some "overflow computing length from shape"
    | .missingData => some "reached EOF before reading all data"
    | .extraBytes count => some s!"file had {count} extra bytes before EOF"
    | .otherRank rank =>
      some s!"ndim {rank} of array did not match Dimension type with NDIM = Some(3)"
    | _ => none

/-! ## Descriptions -/

structure Header where
  descriptor : Literal
  /-- Whether the first axis varies fastest. -/
  columnMajor : Bool
  shape : List Nat

/-- The largest axis length. -/
def maxLength : Nat := 2 ^ 64 - 1

/-- The axis lengths of a shape, if it is a tuple of such. -/
def shape? : Literal → Option (List Nat)
  | .tuple items =>
    items.mapM fun item =>
      match item with
      | .integer (.ofNat n) => if n ≤ maxLength then some n else none
      | _ => none
  | _ => none

/-- A description under construction: each key as it stood last. -/
structure Header.Draft where
  descriptor : Option Literal
  columnMajor : Option Bool
  shape : Option (List Nat)

namespace Header.Draft

def empty : Draft := ⟨none, none, none⟩

/-- Takes one entry of the dictionary. -/
def add (d : Draft) (key value : Literal) : Except Fault Draft :=
  match key with
  | .string cs =>
    if cs = "descr".toList then .ok { d with descriptor := some value }
    else if cs = "fortran_order".toList then
      match value with
      | .boolean b => .ok { d with columnMajor := some b }
      | _ => .error (.illegalValue "fortran_order" value)
    else if cs = "shape".toList then
      match shape? value with
      | some s => .ok { d with shape := some s }
      | none => .error (.illegalValue "shape" value)
    else .error (.unknownKey key)
  | _ => .error (.unknownKey key)

/-- The header, once every key is there. -/
def complete (d : Draft) : Except Fault Header :=
  match d.descriptor, d.columnMajor, d.shape with
  | some descriptor, some columnMajor, some shape => .ok ⟨descriptor, columnMajor, shape⟩
  | none, _, _ => .error (.missingKey "descr")
  | _, none, _ => .error (.missingKey "fortran_order")
  | _, _, none => .error (.missingKey "shaper")

end Header.Draft

def Header.ofLiteral : Literal → Except Fault Header
  | .dict entries => do
    let draft ← entries.foldlM (fun d (key, value) => d.add key value) Header.Draft.empty
    draft.complete
  | value => .error (.notDict value)

/-! ## Reading -/

def magic : List UInt8 := [0x93, 0x4E, 0x55, 0x4D, 0x50, 0x59]

/-- The first `n` bytes and the rest, if there are so many. -/
def takeBytes (n : Nat) (bytes : List UInt8) : Except Fault (List UInt8 × List UInt8) :=
  let front := bytes.take n
  if front.length < n then .error .endsInHeader else .ok (front, bytes.drop n)

/-- How a version lays out the rest of the header: bytes of the length field, and whether the
description may be more than ASCII. -/
def layout? : List UInt8 → Option (Nat × Bool)
  | [1, 0] => some (2, false)
  | [2, 0] => some (4, false)
  | [3, 0] => some (4, true)
  | _ => none

def descriptionText (unicode : Bool) (bytes : List UInt8) : Except Fault (List Char) :=
  if unicode then
    match Utf8.decode bytes with
    | .ok cs => .ok cs
    | .error fault => .error (.notUtf8 fault)
  else if bytes.all (· < 0x80) then .ok (bytes.map fun b => Char.ofNat b.toNat)
  else .error .notAscii

/-- The header of a file and the bytes after it. -/
def readHeader (bytes : List UInt8) : Except Fault (Header × List UInt8) := do
  let (start, rest) ← takeBytes 6 bytes
  if start ≠ magic then throw .magic
  let (version, rest) ← takeBytes 2 rest
  let some (lengthBytes, unicode) := layout? version
    | throw (.version (version.getD 0 0).toNat (version.getD 1 0).toNat)
  let (length, rest) ← takeBytes lengthBytes rest
  let (description, rest) ← takeBytes (ofLittleEndian length) rest
  if description.getLast? ≠ some 0x0A then throw .missingNewline
  let text ← descriptionText unicode description.dropLast
  match Literal.parse? text with
  | some value => return (← Header.ofLiteral value, rest)
  | none => throw .notLiteral

end Npy
end Beamline
