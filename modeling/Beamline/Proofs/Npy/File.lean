import Mathlib.Tactic
import Beamline.Npy.Array
import Beamline.Proofs.Npy.Description
import Beamline.Proofs.Npy.Element
import Beamline.Proofs.Outcome
import Beamline.Proofs.Text.Utf8

/-!
# Files — every way of writing an array

A file is a magic string, a version, the length of the description, the description with a line feed
and the data. `file` puts those together in each of the three versions, which differ in how they
write the length and in whether the description may be more than ASCII; `readHeader_file` says that
the header comes back as what was described, with exactly the data left.
-/

set_option autoImplicit false

namespace Beamline
namespace Npy

inductive Version where
  | one
  | two
  | three
deriving DecidableEq, Repr

namespace Version

def bytes : Version → List UInt8
  | one => [1, 0]
  | two => [2, 0]
  | three => [3, 0]

def lengthBytes : Version → Nat
  | one => 2
  | two | three => 4

/-- Whether the length field can say the length of a text with its line feed. -/
def Holds (version : Version) (text : List Char) : Prop :=
  text.length + 1 < 2 ^ (8 * version.lengthBytes)

instance (version : Version) (text : List Char) : Decidable (version.Holds text) :=
  Nat.decLt _ _

end Version

/-- A text and the line feed that closes it. -/
def descriptionBytes (text : List Char) : List UInt8 := asciiBytes (String.ofList text) ++ [0x0A]

/-- An array file: the magic string, the version, the length of the description in the version's own
width, the description with its line feed, and the data. Nothing is padded; a text may bring its
padding along. -/
def file (version : Version) (text : List Char) (data : List UInt8) : List UInt8 :=
  magic ++ (version.bytes ++ (littleEndian version.lengthBytes (text.length + 1) ++
    (descriptionBytes text ++ data)))

theorem plain_usualDescriptor (e : Element) (order : ByteOrder) :
    PlainText (e.usualDescriptor order) := by
  cases e <;> cases order <;> decide

/-! ## Reading the header back -/

/-- What has been put in front is taken off again. Each step of the header's reader is one of these,
with another length. -/
theorem takeBytes_append {n : Nat} {front : List UInt8} (h : front.length = n)
    (rest : List UInt8) : takeBytes n (front ++ rest) = .ok (front, rest) := by
  unfold takeBytes
  rw [List.take_left' h, List.drop_left' h, if_neg (by omega)]

theorem length_descriptionBytes (text : List Char) :
    (descriptionBytes text).length = text.length + 1 := by
  simp [descriptionBytes, asciiBytes]

theorem dropLast_descriptionBytes (text : List Char) :
    (descriptionBytes text).dropLast = text.map fun c => UInt8.ofNat c.toNat := by
  simp [descriptionBytes, asciiBytes]

/-- ASCII text is read the same by versions that allow more. So one lemma serves for all three
versions, although the reader decodes them in two ways. -/
theorem descriptionText_ascii {text : List Char} (h : Ascii text) (unicode : Bool) :
    descriptionText unicode (text.map fun c => UInt8.ofNat c.toNat) = .ok text := by
  cases unicode with
  | true =>
    unfold descriptionText
    rw [if_pos rfl, ← Utf8.encode_ascii h, Utf8.decode_encode]
  | false =>
    have hbyte : ∀ c ∈ text, (UInt8.ofNat c.toNat).toNat = c.toNat := by
      intro c hc
      have := h c hc
      exact Utf8.toNat_ofNat_of_lt (by omega)
    have hall : (text.map fun c => UInt8.ofNat c.toNat).all (· < 0x80) = true := by
      simp only [List.all_map, List.all_eq_true, Function.comp_apply, decide_eq_true_eq]
      intro c hc
      rw [UInt8.lt_iff_toNat_lt, hbyte c hc]
      exact h c hc
    have hchars : (text.map fun c => UInt8.ofNat c.toNat).map (fun b => Char.ofNat b.toNat) =
        text := by
      rw [List.map_map]
      refine (List.map_congr_left fun c hc => ?_).trans (List.map_id text)
      rw [Function.comp_apply, hbyte c hc, Char.ofNat_toNat]
      rfl
    show (if _ then Except.ok _ else _) = _
    rw [if_pos hall, hchars]

section

variable {text : List Char} {version : Version} {data : List UInt8}

/-- A file is taken apart where it was put together, whatever its description says. It is stated of
any text that parses as some header, because the program's own writer uses another text than the
grammar's usual one. -/
theorem readHeader_of_parse? {x : Literal} {header : Header} (hascii : Ascii text)
    (hparse : Literal.parse? text = some x) (hheader : Header.ofLiteral x = .ok header)
    (hfits : version.Holds text) : readHeader (file version text data) = .ok (header, data) := by
  have hlength := length_littleEndian version.lengthBytes (text.length + 1)
  have hdescription := takeBytes_append (length_descriptionBytes text) data
  have hlast : (descriptionBytes text).getLast? = some 0x0A := by simp [descriptionBytes]
  have hmagic : magic.length = 6 := rfl
  have hversion : version.bytes.length = 2 := by cases version <;> rfl
  obtain ⟨unicode, hlayout⟩ :
      ∃ unicode, layout? version.bytes = some (version.lengthBytes, unicode) := by
    cases version with
    | one | two | three => exact ⟨_, rfl⟩
  unfold readHeader file
  refine bind_eq_ok_iff.mpr ⟨_, takeBytes_append hmagic _, ?_⟩
  dsimp only
  rw [if_neg (by simp)]
  refine bind_eq_ok_iff.mpr ⟨_, takeBytes_append hversion _, ?_⟩
  dsimp only
  rw [hlayout]
  dsimp only
  refine bind_eq_ok_iff.mpr ⟨_, takeBytes_append hlength _, ?_⟩
  dsimp only
  rw [ofLittleEndian_littleEndian hfits]
  refine bind_eq_ok_iff.mpr ⟨_, hdescription, ?_⟩
  dsimp only
  rw [if_neg (by simp [hlast]), dropLast_descriptionBytes, descriptionText_ascii hascii,
    ok_bind, hparse]
  exact bind_eq_ok_iff.mpr ⟨_, hheader, rfl⟩

/-- **A header is read back, and what follows it is the data.** -/
theorem readHeader_file {descriptor : List Char} {columnMajor : Bool} {shape : List Nat}
    (h : Described descriptor columnMajor shape text) (hshape : ∀ n ∈ shape, n ≤ maxLength)
    (hfits : version.Holds text) :
    readHeader (file version text data) =
      .ok (⟨.string descriptor, columnMajor, shape⟩, data) := by
  obtain ⟨x, hparse, hheader⟩ := h.ofLiteral hshape
  exact readHeader_of_parse? h.ascii hparse hheader hfits

end

end Npy
end Beamline
