import Beamline.Proofs.Binary64.Words
import Beamline.Proofs.Npy.File
import Beamline.Proofs.StepSeries.Layout

/-!
# Vectors — what is written is read back

The writer knows one kind of file: a vector of binary64 values, lowest byte first. Its description
is padded to one length for all vectors, which is enough room for the digits of any length a machine
word can hold. So a written file is one of the files that the reader understands
(`writeVector_eq_file`), and what it holds are the values that were written, each bit for bit
(`isVector_writeVector`).
-/

set_option autoImplicit false

namespace Beamline
namespace Npy

/-- A file of version 1.0 that holds a vector of values, each as a word of eight bytes with the
lowest byte first. -/
structure IsVector (bytes : List UInt8) (values : List Binary64) : Prop where
  version : bytes.take 8 = magic ++ [1, 0]
  decoded : ∃ data,
    readHeader bytes = .ok (⟨.string "<f8".toList, false, [values.length]⟩, data) ∧
      data.length = 8 * values.length ∧
      (words 8 values.length data).map (fun word => Binary64.ofBits (ByteOrder.little.word word)) =
        values

/-! ## The description -/

/-- A description as the writer pads it. -/
def vectorText (length : Nat) : List Char :=
  (vectorDescription length).toList ++
    List.replicate (descriptionLength - 1 - (vectorDescription length).toList.length) ' '

theorem toList_vectorDescription (n : Nat) :
    (vectorDescription n).toList = [] ++ '\x7b' :: [] ++
      (entryText "descr".toList ('\'' :: "<f8".toList ++ ['\'']) ++ ',' :: [' '] ++
        (entryText "fortran_order".toList (booleanText false) ++ ',' :: [' '] ++
          (entryText "shape".toList ('(' :: (Nat.toDigits 10 n ++ [',', ')'])) ++ ',' :: [' '] ++
            ['\x7d']))) := by
  unfold vectorDescription entryText booleanText
  simp

theorem length_vectorText {n : Nat} (h : n ≤ maxLength) :
    (vectorText n).length + 1 = descriptionLength := by
  have hdigits : (Nat.toDigits 10 n).length ≤ 20 := by
    refine Nat.toDigits_length 10 n 20 (by decide) ?_
    unfold maxLength at h
    omega
  have hlength : (vectorDescription n).toList.length = 56 + (Nat.toDigits 10 n).length := by
    rw [toList_vectorDescription]
    simp [entryText, booleanText]
    omega
  unfold vectorText descriptionLength
  rw [List.length_append, List.length_replicate, hlength]
  omega

theorem blanks_replicate (k : Nat) : Blanks (List.replicate k ' ') := by
  intro c hc
  rw [List.eq_of_mem_replicate hc]
  rfl

theorem parse?_vectorText (n : Nat) :
    Literal.parse? (vectorText n) =
      some (.dict (Literal.ofEntries (facts "<f8".toList false [n]))) := by
  have hkeys : PlainText "descr".toList ∧ PlainText "fortran_order".toList ∧
      PlainText "shape".toList ∧ PlainText "<f8".toList := by decide
  obtain ⟨hdescr, horder, hshape, htype⟩ := hkeys
  have htuple := (Literal.reads_single n).entry (.single hshape) blanks_nil blanks_space blanks_nil
  have hboolean := Literal.readsEntry (entry_entryText horder .false)
  have hstring := Literal.readsEntry (entry_entryText hdescr (.string (.single htype)))
  have hentries := hstring.cons blanks_space (hboolean.cons blanks_space
    (htuple.lastComma blanks_space))
  unfold vectorText
  rw [toList_vectorDescription]
  exact hentries.parse? blanks_nil blanks_nil (blanks_replicate _)

theorem ascii_vectorText (n : Nat) : Ascii (vectorText n) := by
  unfold vectorText
  rw [ascii_append, toList_vectorDescription]
  refine ⟨?_, (blanks_replicate _).ascii⟩
  simp [entryText, booleanText, ascii_toDigits]

/-! ## The file -/

/-- The writer writes one of the files that the reader understands. -/
theorem writeVector_eq_file {values : List Binary64} (h : values.length ≤ maxLength) :
    writeVector values =
      file .one (vectorText values.length)
        ((values.map Binary64.toBits).flatMap (ByteOrder.little.bytes 8)) := by
  have hlength := length_vectorText h
  have hpadding : (List.replicate (descriptionLength - 1 -
        (asciiBytes (vectorDescription values.length)).length) (0x20 : UInt8)) =
      (List.replicate (descriptionLength - 1 - (vectorDescription values.length).toList.length)
        ' ').map fun c => UInt8.ofNat c.toNat := by
    rw [List.map_replicate, asciiBytes, List.length_map]
    rfl
  unfold writeVector file descriptionBytes
  dsimp only
  rw [hlength, hpadding]
  simp only [asciiBytes, vectorText, String.toList_ofList, List.map_append, List.flatMap_map,
    List.append_assoc]
  rfl

/-- **A written vector is read back**: its length as its length, and every value bit for bit. -/
theorem isVector_writeVector {values : List Binary64} (h : values.length ≤ maxLength) :
    IsVector (writeVector values) values := by
  rw [writeVector_eq_file h]
  refine ⟨rfl, (values.map Binary64.toBits).flatMap (ByteOrder.little.bytes 8), ?_, ?_, ?_⟩
  · refine readHeader_of_parse? (ascii_vectorText _) (parse?_vectorText _) ?_ ?_
    · exact Header.ofLiteral_facts (List.Perm.refl _) fun n hn => by
        rw [List.mem_singleton.mp hn]
        exact h
    · unfold Version.Holds
      rw [length_vectorText h]
      decide
  · rw [length_flatMap_of_length (ByteOrder.length_bytes .little 8), List.length_map, Nat.mul_comm]
  · have hwords := words_flatMap (ByteOrder.length_bytes .little 8) (values.map Binary64.toBits)
    rw [List.length_map] at hwords
    rw [hwords, List.map_map, List.map_map]
    refine (List.map_congr_left fun x _ => ?_).trans (List.map_id values)
    have hword : ByteOrder.little.word (ByteOrder.little.bytes 8 x.toBits) = x.toBits :=
      ByteOrder.word_bytes x.toBits_lt (Or.inl rfl)
    rw [Function.comp_apply, Function.comp_apply, hword]
    exact x.ofBits_toBits

end Npy
end Beamline
