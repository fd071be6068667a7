import Mathlib.Tactic
import Beamline.Proofs.Toml.Number

/-!
# Dates — how they may be written

A date begins in a word as a number does, and goes on in the tokens after it (`DateText`): a day, a
day and a time joined by a letter or by one blank, or a time alone. What tells it apart from a
number is the characters of that first word, and otherwise a colon after it. Nothing is made of a
date, so all there is to show is that it is read to its end (`wordValue?_of_dateText`).
-/

set_option autoImplicit false

namespace Beamline
namespace Toml

/-- A field of a date: some number of digits. Whether they make a month or an hour is not looked at,
as the reader does not. -/
structure Field (count : Nat) (cs : List Char) : Prop where
  length_eq : cs.length = count
  isDigit : ∀ c ∈ cs, Text.isDigit 10 c = true

/-- A day, by its year, month and day of the month. -/
def IsDay (cs : List Char) : Prop :=
  ∃ year month day, Field 4 year ∧ Field 2 month ∧ Field 2 day ∧
    cs = year ++ '-' :: month ++ '-' :: day

/-- The offset of a time, if it has one: what it adds to the word of the seconds, and the tokens
after. A plus sign is no character of a word and a minus sign is, so the two are written of
different tokens. -/
inductive Offset : List Char → List Token → Prop where
  | none : Offset [] []
  | zero {letter : Char} (h : letter = 'Z' ∨ letter = 'z') : Offset [letter] []
  | minus {hours minutes : List Char} (h : Field 2 hours) (h' : Field 2 minutes) :
      Offset ('-' :: hours) [.mark ':', .word minutes]
  | plus {hours minutes : List Char} (h : Field 2 hours) (h' : Field 2 minutes) :
      Offset [] [.mark '+', .word hours, .mark ':', .word minutes]

/-- A time after its hour. The hour itself is in the word before, where it may stand behind a
day. -/
inductive AfterHour : List Token → Prop where
  | whole {minutes seconds offset : List Char} {more : List Token} (h : Field 2 minutes)
      (h' : Field 2 seconds) (ho : Offset offset more) :
      AfterHour (.mark ':' :: .word minutes :: .mark ':' :: .word (seconds ++ offset) :: more)
  | fraction {minutes seconds digits offset : List Char} {more : List Token} (h : Field 2 minutes)
      (h' : Field 2 seconds) (hd : ∀ c ∈ digits, Text.isDigit 10 c = true)
      (ho : Offset offset more) :
      AfterHour (.mark ':' :: .word minutes :: .mark ':' :: .word seconds :: .mark '.' ::
        .word (digits ++ offset) :: more)

/-- A date, a time or both: the word that it begins with, and the tokens after that. Colons and
points divide words, so a time is spread over several of them. -/
inductive DateText : List Char → List Token → Prop where
  | day {day : List Char} (h : IsDay day) : DateText day []
  | joined {day hour : List Char} {letter : Char} {more : List Token} (h : IsDay day)
      (hletter : letter = 'T' ∨ letter = 't') (h' : Field 2 hour) (ht : AfterHour more) :
      DateText (day ++ letter :: hour) more
  | spaced {day hour : List Char} {more : List Token} (h : IsDay day) (h' : Field 2 hour)
      (ht : AfterHour more) : DateText day (.blank [' '] :: .word hour :: more)
  | time {hour : List Char} {more : List Token} (h : Field 2 hour) (ht : AfterHour more) :
      DateText hour more

section

variable {cs offset : List Char} {more rest : List Token} {count : Nat}

theorem Field.head (h : Field (count + 1) cs) : cs.head?.any (Text.isDigit 10) = true := by
  obtain ⟨c, more, rfl⟩ := List.exists_cons_of_length_eq_add_one h.length_eq
  exact h.isDigit c List.mem_cons_self

theorem Field.not_mem (h : Field count cs) {c : Char} (hc : Text.isDigit 10 c = false) :
    c ∉ cs := by
  intro hmem
  rw [h.isDigit c hmem] at hc
  cases hc

theorem IsDay.head (h : IsDay cs) (tail : List Char) :
    (cs ++ tail).head?.any (Text.isDigit 10) = true := by
  obtain ⟨year, month, day, hyear, -, -, rfl⟩ := h
  obtain ⟨c, more, rfl⟩ := List.exists_cons_of_length_eq_add_one hyear.length_eq
  exact hyear.isDigit c List.mem_cons_self

/-- A run of characters is nowhere in a text that lacks its first one. -/
theorem containsRun_eq_false {c : Char} {run : List Char} (h : c ∉ cs) :
    containsRun (c :: run) cs = false := by
  induction cs with
  | nil => rfl
  | cons d cs ih =>
    obtain ⟨hne, hrest⟩ := not_or.mp fun hmem => h (List.mem_cons.mpr hmem)
    simp [containsRun, ih hrest, List.isPrefixOf, hne]

/-- A day looks like a date, since a minus sign inside a word could otherwise only be that of an
exponent. -/
theorem looksLikeDate_of_day (h : IsDay cs) : looksLikeDate cs = true := by
  obtain ⟨year, month, day, hyear, hmonth, hday, rfl⟩ := h
  have hnot : ∀ c, Text.isDigit 10 c = false → c ≠ '-' →
      c ∉ year ++ '-' :: month ++ '-' :: day := by
    intro c hc hne
    simp [hyear.not_mem hc, hmonth.not_mem hc, hday.not_mem hc, hne]
  obtain ⟨c, tail, rfl⟩ := List.exists_cons_of_length_eq_add_one hyear.length_eq
  have hminus : ((c :: tail ++ '-' :: month ++ '-' :: day).drop 1).contains '-' = true := by simp
  unfold looksLikeDate
  rw [hminus, containsRun_eq_false (hnot 'e' (by decide) (by decide)),
    containsRun_eq_false (hnot 'E' (by decide) (by decide))]
  simp

theorem looksLikeDate_of_letter {letter : Char} (h : letter = 'T' ∨ letter = 't')
    (front back : List Char) :
    looksLikeDate (front ++ letter :: back) = true := by
  unfold looksLikeDate
  rcases h with rfl | rfl <;> simp

/-- The hour of a time does not, so it is the colon behind it that tells. -/
theorem looksLikeDate_of_field (h : Field count cs) : looksLikeDate cs = false :=
  looksLikeDate_eq_false ⟨h.not_mem (by decide), h.not_mem (by decide)⟩
    (Or.inl fun hmem => h.not_mem (by decide) (List.mem_of_mem_drop hmem))

theorem dropPart_of_head {m : Char} (h : ∀ t, rest.head? = some t → t ≠ .mark m) :
    dropPart m rest = some rest := by
  unfold dropPart
  split
  next c tail =>
    rw [if_neg]
    rintro rfl
    exact h _ rfl rfl
  next => rfl

theorem dropPart_part (m : Char) (word : List Char) (rest : List Token) :
    dropPart m (.mark m :: .word word :: rest) = some rest := if_pos rfl

theorem Follows.dropPart (h : Follows rest) :
    dropPart '.' rest = some rest ∧ dropPart ':' rest = some rest ∧ dropPart '+' rest = some rest :=
  ⟨dropPart_of_head fun t ht => (h.head t ht).1, dropPart_of_head fun t ht => (h.head t ht).2.1,
    dropPart_of_head fun t ht => (h.head t ht).2.2⟩

/-- An offset is dropped, and no fraction is taken for it. What is left is what follows the
value. -/
theorem dropPart_offset (h : Offset offset more) (hrest : Follows rest) :
    dropPart '.' (more ++ rest) = some (more ++ rest) ∧
      (dropPart '+' (more ++ rest)).bind (dropPart ':') = some rest := by
  obtain ⟨hpoint, hcolon, hplus⟩ := hrest.dropPart
  cases h with
  | none => exact ⟨hpoint, by rw [List.nil_append, hplus]; exact hcolon⟩
  | zero => exact ⟨hpoint, by rw [List.nil_append, hplus]; exact hcolon⟩
  | minus h h' =>
    refine ⟨dropPart_of_head (by rintro t ⟨⟩; decide), ?_⟩
    rw [dropPart_of_head (by rintro t ⟨⟩; decide)]
    rfl
  | @plus hours minutes h h' =>
    refine ⟨dropPart_of_head (by rintro t ⟨⟩; decide), ?_⟩
    have hpart := dropPart_part '+' hours ([.mark ':', .word minutes] ++ rest)
    exact (congrArg (Option.bind · (Toml.dropPart ':')) hpart).trans
      (dropPart_part ':' minutes rest)

/-- A time is dropped to its end. What follows the colon is no blank, so the time is not mistaken
for a day that another time belongs to. -/
theorem dropTime_eq (h : AfterHour more) (hrest : Follows rest) :
    ∃ after, more = .mark ':' :: after ∧ dropTime (after ++ rest) = some rest ∧
      ∀ word back, after ++ rest ≠ .blank [' '] :: .word word :: back := by
  cases h with
  | whole h h' ho =>
    obtain ⟨hpoint, hoffset⟩ := dropPart_offset ho hrest
    refine ⟨_, rfl, ?_, by rintro word back ⟨⟩⟩
    simpa [dropTime, hpoint] using hoffset
  | @fraction minutes seconds digits offset more h h' hd ho =>
    obtain ⟨-, hoffset⟩ := dropPart_offset ho hrest
    have hpart := dropPart_part '.' (digits ++ offset) (more ++ rest)
    refine ⟨_, rfl, ?_, by rintro word back ⟨⟩⟩
    simpa [dropTime, hpart] using hoffset

/-- Where no time follows after a blank, a date goes on with a colon or ends. -/
theorem dropDate_of_not_blank (h : ∀ word back, rest ≠ .blank [' '] :: .word word :: back) :
    dropDate true rest = dropTime rest ∧
      ((∀ back, rest ≠ .mark ':' :: back) → dropDate false rest = some rest) := by
  constructor
  · unfold dropDate
    split
    · exact absurd rfl (h _ _)
    · rfl
  · intro hcolon
    unfold dropDate
    split
    · exact absurd rfl (h _ _)
    · rw [if_neg (by simp)]
      split
      · exact absurd rfl (hcolon _)
      · rfl

theorem dropDate_of_colon (h : AfterHour more) (hrest : Follows rest) :
    ∃ after, more = .mark ':' :: after ∧ dropDate false (more ++ rest) = some rest ∧
      dropDate true (after ++ rest) = some rest := by
  obtain ⟨after, rfl, htime, hblank⟩ := dropTime_eq h hrest
  refine ⟨after, rfl, htime, ?_⟩
  rw [(dropDate_of_not_blank hblank).1]
  exact htime

/-- **A date that begins a value is the value**, and nothing is made of it. The four ways of writing
one differ in what the first word looks like and in what has been read when its end is looked
for. -/
theorem wordValue?_of_dateText (h : DateText cs more) (hrest : Follows rest) :
    wordValue? cs (more ++ rest) = some (.date, rest) := by
  have hdigit : ∀ {cs : List Char}, cs.head?.any (Text.isDigit 10) = true →
      cs = "inf".toList ∨ cs = "nan".toList ∨ cs.head? = some '-' ∨
        cs.head?.any (Text.isDigit 10) = true := fun h => Or.inr (Or.inr (Or.inr h))
  cases h with
  | day h =>
    have hhead := h.head []
    rw [List.append_nil] at hhead
    rw [wordValue?_of_head (hdigit hhead), looksLikeDate_of_day h, if_pos rfl, List.nil_append]
    have hdrop : dropDate false rest = some rest := by
      refine (dropDate_of_not_blank fun word back => hrest.time _ word back).2 ?_
      rintro back rfl
      exact absurd rfl (hrest.head _ rfl).2.1
    rw [hdrop]
    rfl
  | joined h hletter h' ht =>
    obtain ⟨after, -, hdrop, -⟩ := dropDate_of_colon ht hrest
    rw [wordValue?_of_head (hdigit (h.head _)), looksLikeDate_of_letter hletter, if_pos rfl, hdrop]
    rfl
  | spaced h h' ht =>
    have hhead := h.head []
    rw [List.append_nil] at hhead
    obtain ⟨after, rfl, hdrop, -⟩ := dropDate_of_colon ht hrest
    rw [wordValue?_of_head (hdigit hhead), looksLikeDate_of_day h, if_pos rfl]
    exact congrArg (Option.map (Value.date, ·)) hdrop
  | time h ht =>
    obtain ⟨after, rfl, -, hdrop⟩ := dropDate_of_colon ht hrest
    rw [wordValue?_of_head (hdigit h.head), looksLikeDate_of_field h, if_neg (by simp)]
    exact congrArg (Option.map (Value.date, ·)) hdrop

end

end Toml
end Beamline
