import Mathlib.Data.List.TakeWhile
import Mathlib.Tactic
import Beamline.Binary64.Literal
import Beamline.Proofs.Text.Blank

/-!
# Literals — what a number cannot be written with

A literal is made of digits, a point, signs and letters, all of them printed ASCII characters
(`graphic_of_parse?`). So no blank is ever part of one, and trimming a text that is a literal leaves
it as it is (`trim_of_parse?`).
-/

set_option autoImplicit false

namespace Beamline
namespace Binary64

/-- A printed ASCII character that takes up room. The bounds are those of the ASCII table, so that
what is no blank for the table reader is decided by two comparisons. -/
def Graphic (c : Char) : Prop := 0x21 ≤ c.toNat ∧ c.toNat ≤ 0x7E

theorem Graphic.isBlank {c : Char} (h : Graphic c) : Text.isBlank c = false := by
  obtain ⟨hlow, hhigh⟩ := h
  unfold Text.isBlank
  simp
  omega

/-- Every digit is printed. Digits are told by the ranges of the hexadecimal ones, which is why
letters come up here although no literal in base ten has them as digits. -/
theorem graphic_of_isDigit {c : Char} (h : Text.isDigit 10 c = true) : Graphic c := by
  unfold Text.isDigit Text.digit? Text.hexDigit? at h
  have hrange : ∀ low high : Char, low ≤ c ∧ c ≤ high → low.toNat ≤ c.toNat ∧
      c.toNat ≤ high.toNat :=
    fun _ _ hc => hc
  split at h
  · next hc => exact ⟨(by decide : 0x21 ≤ '0'.toNat).trans (hrange _ _ hc).1,
      (hrange _ _ hc).2.trans (by decide)⟩
  split at h
  · next hc => exact ⟨(by decide : 0x21 ≤ 'a'.toNat).trans (hrange _ _ hc).1,
      (hrange _ _ hc).2.trans (by decide)⟩
  split at h
  · next hc => exact ⟨(by decide : 0x21 ≤ 'A'.toNat).trans (hrange _ _ hc).1,
      (hrange _ _ hc).2.trans (by decide)⟩
  · cases h

/-- Lower case makes printed characters of printed characters only. The words for infinity and for
NaN are compared in lower case, and what was written need not have been. -/
theorem graphic_of_toLower {c : Char} (h : Graphic c.toLower) : Graphic c := by
  by_cases hupper : 'A' ≤ c ∧ c ≤ 'Z'
  · have hlow : 'A'.toNat ≤ c.toNat := hupper.1
    have hhigh : c.toNat ≤ 'Z'.toNat := hupper.2
    exact ⟨(by decide : 0x21 ≤ 'A'.toNat).trans hlow, hhigh.trans (by decide)⟩
  · have hsame : c.toLower = c := dif_neg hupper
    rwa [hsame] at h

/-! ## The grammar -/

theorem graphic_of_takeSign {cs : List Char} (h : ∀ c ∈ (takeSign cs).2, Graphic c) :
    ∀ c ∈ cs, Graphic c := by
  unfold takeSign at h
  split at h
  · exact List.forall_mem_cons.mpr ⟨⟨by decide, by decide⟩, h⟩
  · exact List.forall_mem_cons.mpr ⟨⟨by decide, by decide⟩, h⟩
  · exact h

/-- An exponent is nothing, or an `e` with a sign and digits; there is no third way to be one, so
everything in it is printed. -/
theorem graphic_of_exponent? {cs : List Char} {e : Int} (h : exponent? cs = some e) :
    ∀ c ∈ cs, Graphic c := by
  cases cs with
  | nil => rintro c ⟨⟩
  | cons c cs =>
    obtain ⟨sign, digits, hsign⟩ : ∃ sign digits, takeSign cs = (sign, digits) := ⟨_, _, rfl⟩
    unfold exponent? at h
    dsimp only at h
    rw [hsign] at h
    by_cases hc : c = 'e' ∨ c = 'E'
    · rw [if_pos hc] at h
      dsimp only at h
      by_cases hbad : digits.isEmpty = true ∨ (! digits.all (Text.isDigit 10)) = true
      · rw [if_pos hbad] at h
        cases h
      have hall : ∀ d ∈ digits, Text.isDigit 10 d = true := by
        have hgood := (not_or.mp hbad).2
        rwa [Bool.not_eq_true', Bool.not_eq_false, List.all_eq_true] at hgood
      refine List.forall_mem_cons.mpr ⟨?_, graphic_of_takeSign ?_⟩
      · rcases hc with rfl | rfl
        · exact ⟨by decide, by decide⟩
        · exact ⟨by decide, by decide⟩
      · rw [hsign]
        exact fun d hd => graphic_of_isDigit (hall d hd)
    · rw [if_neg hc] at h
      cases h

/-- Digits at the front of a text are printed, so the text is if the rest is. -/
theorem graphic_of_dropWhile {cs : List Char}
    (h : ∀ c ∈ cs.dropWhile (Text.isDigit 10), Graphic c) : ∀ c ∈ cs, Graphic c := by
  intro c hc
  rw [← List.takeWhile_append_dropWhile (p := Text.isDigit 10) (l := cs)] at hc
  rcases List.mem_append.mp hc with hdigit | hrest
  · exact graphic_of_isDigit (List.mem_takeWhile_imp hdigit)
  · exact h c hrest

/-- What follows the sign is digits, a point, more digits and an exponent. The parser cuts off the
longest run of digits each time, and the lemma follows those cuts. -/
theorem graphic_of_unsigned? {sign : Sign} {cs : List Char} {x : Binary64}
    (h : unsigned? sign cs = some x) : ∀ c ∈ cs, Graphic c := by
  refine graphic_of_dropWhile ?_
  unfold unsigned? at h
  dsimp only at h
  -- Where there is a point, what follows it is digits and the exponent; else just the exponent.
  split at h
  · next more hafter =>
    split at h
    · cases h
    obtain ⟨e, he, -⟩ := Option.map_eq_some_iff.mp h
    rw [hafter]
    exact List.forall_mem_cons.mpr
      ⟨⟨by decide, by decide⟩, graphic_of_dropWhile (graphic_of_exponent? he)⟩
  · split at h
    · cases h
    obtain ⟨e, he, -⟩ := Option.map_eq_some_iff.mp h
    exact graphic_of_exponent? he

theorem graphic_of_word {cs : List Char} {word : String}
    (h : String.ofList (cs.map Char.toLower) = word) (hword : ∀ c ∈ word.toList, Graphic c) :
    ∀ c ∈ cs, Graphic c := by
  intro c hc
  refine graphic_of_toLower (hword _ ?_)
  rw [← h, String.toList_ofList]
  exact List.mem_map_of_mem hc

/-- Every character of a literal is printed. Of the parser nothing else is used outside this
module. -/
theorem graphic_of_parse? {cs : List Char} {x : Binary64} (h : parse? cs = some x) :
    ∀ c ∈ cs, Graphic c := by
  refine graphic_of_takeSign ?_
  unfold parse? at h
  dsimp only at h
  split at h
  · next hword =>
    exact graphic_of_word hword (by simp [Graphic])
  split at h
  · next hword =>
    rcases hword with hword | hword
    · exact graphic_of_word hword (by simp [Graphic])
    · exact graphic_of_word hword (by simp [Graphic])
  · exact graphic_of_unsigned? h

/-- **A text that is a literal has nothing to trim.** A written table may pad its cells; the reader
takes the padding off, and by this it finds the number that the cell was padded around. -/
theorem trim_of_parse? {cs : List Char} {x : Binary64} (h : parse? cs = some x) :
    Text.trim cs = cs :=
  Text.trimWith_eq_self fun c hc => (graphic_of_parse? h c hc).isBlank

end Binary64
end Beamline
