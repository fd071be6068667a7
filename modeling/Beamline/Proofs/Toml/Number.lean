import Mathlib.Tactic
import Beamline.Toml.Value

/-!
# Numbers — how they may be written

A number begins in a word, and may go on in the tokens after it: a point and a word, a plus sign and
a word (`Numeral`). Digits may have single underscores between them (`Digits`), and a whole part
does not begin with a zero, unless it is one. Such a number is read as its value
(`wordValue?_of_numeral`), as long as nothing follows that it would go on with (`Follows`).
-/

set_option autoImplicit false

namespace Beamline
namespace Toml

/-! ## Digits -/

/-- Some digits, and a way to write them. Single underscores may stand between two of them. The two
are kept apart since the value is that of the digits, while the reader goes by the text. -/
inductive Digits (base : Nat) : List Char → List Char → Prop where
  | last {d : Char} (hd : Text.isDigit base d = true) : Digits base [d] [d]
  | next {d : Char} {digits text : List Char} (hd : Text.isDigit base d = true)
      (h : Digits base digits text) : Digits base (d :: digits) (d :: text)
  | spaced {d : Char} {digits text : List Char} (hd : Text.isDigit base d = true)
      (h : Digits base digits text) : Digits base (d :: digits) (d :: '_' :: text)

/-- Digits that a whole part may have: a first zero is the only one. Fractions, exponents and the
other bases take any digits, so this is asked for where a number is read and is no part of
`Digits`. -/
def Whole (digits : List Char) : Prop := digits.length = 1 ∨ digits.head? ≠ some '0'

section

variable {base : Nat} {digits text rest : List Char} {c : Char}

/-- An underscore is no digit in any base. That is why the digits can be got back from a text by
leaving out everything else (`Digits.filter`). -/
theorem underscore_not_digit (base : Nat) : Text.isDigit base '_' = false := by
  have hnone : Text.hexDigit? '_' = none := by decide
  rw [Text.isDigit, Text.digit?, hnone]
  rfl

/-- A text of digits begins with a digit, the first of them. What a number is not is mostly seen
here: no word like `inf`, no minus sign, no exponent. -/
theorem Digits.head (h : Digits base digits text) :
    ∃ d more, text = d :: more ∧ digits.head? = some d ∧ Text.isDigit base d = true := by
  cases h with
  | last hd => exact ⟨_, _, rfl, rfl, hd⟩
  | next hd => exact ⟨_, _, rfl, rfl, hd⟩
  | spaced hd => exact ⟨_, _, rfl, rfl, hd⟩

/-- There is nothing but digits and underscores in the text, so a reader that takes these as long as
they come takes all of it. -/
theorem Digits.mem (h : Digits base digits text) (hc : c ∈ text) :
    Text.isDigit base c = true ∨ c = '_' := by
  induction h with
  | last hd => exact Or.inl (List.mem_singleton.mp hc ▸ hd)
  | next hd _ ih =>
    rcases List.mem_cons.mp hc with rfl | hc
    · exact Or.inl hd
    · exact ih hc
  | spaced hd _ ih =>
    rcases List.mem_cons.mp hc with rfl | hc
    · exact Or.inl hd
    · rcases List.mem_cons.mp hc with rfl | hc
      · exact Or.inr rfl
      · exact ih hc

/-- Leaving out the underscores gives the digits back. -/
theorem Digits.filter (h : Digits base digits text) : text.filter (Text.isDigit base) = digits := by
  induction h with
  | last hd => simp [hd]
  | next hd _ ih => simp [hd, ih]
  | spaced hd _ ih => simp [hd, ih, underscore_not_digit]

/-- Underscores stand between digits only. The flag says whether a digit stands before the text; as
the text begins with one, it makes no difference, and the induction needs it both ways. -/
theorem Digits.underscoresInside (h : Digits base digits text) (afterDigit : Bool) :
    underscoresInside afterDigit text = true := by
  have hne : ∀ d, Text.isDigit base d = true → d ≠ '_' := by
    rintro d hd rfl
    rw [underscore_not_digit] at hd
    cases hd
  induction h generalizing afterDigit with
  | last hd => simp [Toml.underscoresInside, hne _ hd]
  | next hd _ ih => simp [Toml.underscoresInside, hne _ hd, ih]
  | spaced hd _ ih => simp [Toml.underscoresInside, hne _ hd, ih]

/-- **Digits are read as far as they go**: up to something that is neither a digit nor an
underscore. Whole parts, fractions, exponents and the other bases are all read through this; they
differ in whether leading zeros are allowed, and in what may come next. -/
theorem digits?_append {leadingZeros : Bool} (h : Digits base digits text)
    (hzeros : leadingZeros = true ∨ Whole digits)
    (hrest : ∀ c, rest.head? = some c → Text.isDigit base c = false ∧ c ≠ '_') :
    digits? base leadingZeros (text ++ rest) = some (digits, rest) := by
  -- The run that the reader takes is the text, no less and no more.
  have hrun : (text ++ rest).takeWhile (fun c => Text.isDigit base c || c == '_') = text := by
    rw [List.takeWhile_append_of_pos]
    · cases rest with
      | nil => simp
      | cons c rest =>
        obtain ⟨hdigit, hunder⟩ := hrest c rfl
        simp [hdigit, hunder]
    · intro c hc
      simpa using h.mem hc
  have hfine : (leadingZeros || digits.length == 1 || digits.head? != some '0') = true := by
    rcases hzeros with rfl | hone | hne
    · rfl
    · simp [hone]
    · simp [hne]
  have hfine' : (Toml.underscoresInside false text &&
      (leadingZeros || digits.length == 1 || digits.head? != some '0')) = true := by
    rw [h.underscoresInside, hfine]
    rfl
  unfold digits?
  dsimp only
  rw [hrun, h.filter, if_pos hfine', List.drop_left]

/-- The same where nothing follows, as at the end of a word. -/
theorem digits?_eq {leadingZeros : Bool} (h : Digits base digits text)
    (hzeros : leadingZeros = true ∨ Whole digits) :
    digits? base leadingZeros text = some (digits, []) := by
  have happend : digits? base leadingZeros (text ++ []) = some (digits, []) :=
    digits?_append h hzeros (by rintro c ⟨⟩)
  rwa [List.append_nil] at happend

/-- What is neither a digit nor an underscore is not in the text. The reader tells bases, exponents
and dates by single letters anywhere in a word, so their absence is needed for each of them. -/
theorem Digits.not_mem (h : Digits base digits text) (hdigit : Text.isDigit base c = false)
    (hunder : c ≠ '_') : c ∉ text := by
  intro hc
  rcases h.mem hc with hyes | hyes
  · rw [hdigit] at hyes
    cases hyes
  · exact hunder hyes

end

/-! ## Numerals -/

/-- A minus sign is part of the word. A plus sign is not: it is a token of its own in front of the
word, which leaves the word as it would be without one. -/
def signed : Sign → List Char → List Char
  | .plus, cs => cs
  | .minus, cs => '-' :: cs

/-- Letters that no decimal number is written with. The first three would make it a number in
another base, the last two a date. -/
def otherLetters : List Char := ['x', 'o', 'b', 't', 'T']

/-- An exponent: what is left of its word, and the tokens after that. A plus sign ends the word, so
such an exponent is spread over two more tokens. -/
inductive Exponent : ℤ → List Char → List Token → Prop where
  | word {letter : Char} {sign : Sign} {digits text : List Char}
      (hletter : letter = 'e' ∨ letter = 'E') (h : Digits 10 digits text) :
      Exponent (sign.apply (Text.numberOf 10 digits)) (letter :: signed sign text) []
  | plus {letter : Char} {digits text : List Char} (hletter : letter = 'e' ∨ letter = 'E')
      (h : Digits 10 digits text) :
      Exponent (Text.numberOf 10 digits) [letter] [.mark '+', .word text]

/-- A number of some sign: the word that it begins with, without the sign, and the tokens after
that. Integers fit into 64 bits, bases other than ten have no sign, and a number with a point or an
exponent rounds to a finite value; all else is refused. -/
inductive Numeral (sign : Sign) : Value → List Char → List Token → Prop where
  | integer {digits text : List Char} {i : ℤ} (h : Digits 10 digits text) (hwhole : Whole digits)
      (hi : i = sign.apply (Text.numberOf 10 digits)) (hrange : -2 ^ 63 ≤ i ∧ i < 2 ^ 63) :
      Numeral sign (.integer i) text []
  | based {base : Nat} {letter : Char} {digits text : List Char} (hsign : sign = .plus)
      (hbase : (base, letter) ∈ [(16, 'x'), (8, 'o'), (2, 'b')]) (h : Digits base digits text)
      (hrange : Text.numberOf base digits < 2 ^ 63) :
      Numeral sign (.integer (Text.numberOf base digits)) ('0' :: letter :: text) []
  | infinite : Numeral sign (.float (.infinite sign)) "inf".toList []
  | nan : Numeral sign (.float .nan) "nan".toList []
  | exponential {digits text suffix : List Char} {more : List Token} {e : ℤ} {x : Binary64}
      (h : Digits 10 digits text) (hwhole : Whole digits) (he : Exponent e suffix more)
      (hx : x = Binary64.ofDecimal sign (Text.numberOf 10 digits) e) (hfinite : x.isFinite = true) :
      Numeral sign (.float x) (text ++ suffix) more
  | fractional {digits text fraction text' suffix : List Char} {more : List Token} {e : ℤ}
      {x : Binary64}
      (h : Digits 10 digits text) (hwhole : Whole digits) (h' : Digits 10 fraction text')
      (he : Exponent e suffix more ∨ e = 0 ∧ suffix = [] ∧ more = [])
      (hx : x = Binary64.ofDecimal sign (Text.numberOf 10 (digits ++ fraction))
        (e - fraction.length))
      (hfinite : x.isFinite = true) :
      Numeral sign (.float x) text (.mark '.' :: .word (text' ++ suffix) :: more)

/-- What may follow a value, for it to end there: no mark that a number or a date goes on with, and
no time after a blank. Every value is read in front of such tokens, and it is up to what stands
around it to see that they are (`Toml.Reads`). -/
structure Follows (rest : List Token) : Prop where
  head : ∀ t, rest.head? = some t → t ≠ .mark '.' ∧ t ≠ .mark ':' ∧ t ≠ .mark '+'
  time : ∀ blank word more, rest ≠ .blank blank :: .word word :: more

section

variable {sign : Sign} {digits text suffix cs : List Char} {more rest : List Token} {e : ℤ}
  {v : Value}

/-- A sign brings no letter but a minus. -/
theorem not_mem_signed {c : Char} (h : c ∉ cs) (hminus : c ≠ '-') : c ∉ signed sign cs := by
  cases sign with
  | plus => exact h
  | minus => simp [signed, h, hminus]

/-- The same with an exponent behind the word. -/
theorem not_mem_signed_append {c : Char} (h : c ∉ signed sign cs) (hsuffix : c ∉ suffix) :
    c ∉ signed sign (cs ++ suffix) := by
  cases sign <;> simp_all [signed]

/-- Taking the sign off gives back the sign and the word. The word must not begin with a minus sign
itself, or it would be taken for the sign of a positive number. -/
theorem minus_signed (h : cs.head? ≠ some '-') : minus (signed sign cs) = (sign, cs) := by
  cases sign with
  | minus => rfl
  | plus =>
    have hplain : minus cs = (.plus, cs) := by
      unfold minus
      split
      · simp at h
      · rfl
    exact hplain

/-- Words that begin with digits do not, whatever they go on with. -/
theorem Digits.head_ne_minus (h : Digits 10 digits text) : (text ++ suffix).head? ≠ some '-' := by
  obtain ⟨d, more, rfl, -, hd⟩ := h.head
  rw [List.cons_append, List.head?_cons]
  rintro ⟨⟩
  exact absurd hd (by decide)

/-- So the sign comes off a word of digits and an exponent, and below, off one of digits alone. -/
theorem minus_signed_append (h : Digits 10 digits text) :
    minus (signed sign (text ++ suffix)) = (sign, text ++ suffix) :=
  minus_signed h.head_ne_minus

theorem minus_signed_digits (h : Digits 10 digits text) :
    minus (signed sign text) = (sign, text) := by
  have happend : minus (signed sign (text ++ [])) = (sign, text ++ []) := minus_signed_append h
  rwa [List.append_nil] at happend

/-- What is left of the word begins with the letter of the exponent. -/
theorem Exponent.head (h : Exponent e suffix more) : ∃ letter tail, suffix = letter :: tail ∧
    (letter = 'e' ∨ letter = 'E') := by
  cases h with
  | word hletter => exact ⟨_, _, rfl, hletter⟩
  | plus hletter => exact ⟨_, _, rfl, hletter⟩

/-- That letter stops the digits before it. It is the side condition of `digits?_append` for the
whole part, and for the fraction if there is one. -/
theorem Exponent.head_not_digit (h : Exponent e suffix more) {c : Char}
    (hc : suffix.head? = some c) :
    Text.isDigit 10 c = false ∧ c ≠ '_' := by
  obtain ⟨letter, tail, rfl, rfl | rfl⟩ := h.head
  · cases hc
    decide
  · cases hc
    decide

/-- An exponent does not make its number one in another base, nor a date. -/
theorem Exponent.not_mem (h : Exponent e suffix more) : ∀ c ∈ otherLetters, c ∉ suffix := by
  have hall : ∀ c ∈ otherLetters,
      c ≠ 'e' ∧ c ≠ 'E' ∧ c ≠ '-' ∧ Text.isDigit 10 c = false ∧ c ≠ '_' :=
    List.forall_iff_forall_mem.mp (by decide)
  intro c hc hmem
  obtain ⟨hsmall, hlarge, hminus, hdigit, hunder⟩ := hall c hc
  cases h with
  | word hletter h =>
    rcases List.mem_cons.mp hmem with rfl | hmem
    · exact hletter.elim hsmall hlarge
    · exact not_mem_signed (h.not_mem hdigit hunder) hminus hmem
  | plus hletter =>
    obtain rfl := List.mem_singleton.mp hmem
    exact hletter.elim hsmall hlarge

/-- An exponent is read to its end, with or without a plus sign. Leading zeros do not matter in
it. -/
theorem exponent?_of_exponent (h : Exponent e suffix more) :
    exponent? suffix (more ++ rest) = some (e, rest) := by
  cases h with
  | @word letter sign digits text hletter h =>
    have hne : (signed sign text).isEmpty = false := by
      obtain ⟨d, more, rfl, -, -⟩ := h.head
      cases sign <;> rfl
    have hletter' : ¬ (letter ≠ 'e' ∧ letter ≠ 'E') := by tauto
    unfold exponent?
    dsimp only
    rw [if_neg hletter', hne, if_neg (by simp), minus_signed_digits h]
    dsimp only
    rw [digits?_eq h (Or.inl rfl)]
    rfl
  | @plus letter digits text hletter h =>
    have hletter' : ¬ (letter ≠ 'e' ∧ letter ≠ 'E') := by tauto
    unfold exponent?
    dsimp only [List.cons_append, List.nil_append]
    rw [if_neg hletter', if_pos List.isEmpty_nil]
    simp only [digits?_eq h (Or.inl rfl)]

/-- A number that begins like none in another base is told by its exponent and its point. The
letters must be missing from all of the word, though only its second place is looked at: it is what
the callers know. -/
theorem number?_of_not_based (h : ∀ c ∈ otherLetters, c ∉ cs) (ts : List Token) :
    number? cs ts =
      if cs.contains 'e' || cs.contains 'E' then exponential? cs ts
      else
        match ts with
        | .mark '.' :: ts =>
          match ts with
          | .word after :: ts => fractional? cs after ts
          | _ => none
        | _ =>
          match special? cs with
          | some v => some (v, ts)
          | none => (integer? cs).map (·, ts) := by
  unfold number?
  split
  · exact absurd (by simp) (h 'x' (by decide))
  · exact absurd (by simp) (h 'o' (by decide))
  · exact absurd (by simp) (h 'b' (by decide))
  · rfl

theorem inRange_of {i : ℤ} (h : -2 ^ 63 ≤ i ∧ i < 2 ^ 63) : inRange i = some i := if_pos h

/-- A word without a point or an exponent is a number by a name of its own, or an integer. -/
theorem number?_of_word (hletters : ∀ c ∈ otherLetters ++ ['e', 'E'], c ∉ cs)
    (hrest : ∀ t, rest.head? = some t → t ≠ .mark '.') :
    number? cs rest =
      match special? cs with
      | some v => some (v, rest)
      | none => (integer? cs).map (·, rest) := by
  have hbased : ∀ c ∈ otherLetters, c ∉ cs := fun c hc => hletters c (List.mem_append_left _ hc)
  have he : (cs.contains 'e' || cs.contains 'E') = false := by
    simp [hletters 'e' (by decide), hletters 'E' (by decide)]
  rw [number?_of_not_based hbased, he, if_neg (by simp)]
  split
  next ts _ => exact absurd rfl (hrest (.mark '.') rfl)
  next => rfl

/-- None of the letters that tell the other forms of numbers apart is in a word of digits, signed or
not. -/
theorem Digits.not_mem_letters (h : Digits 10 digits text) (sign : Sign) :
    ∀ c ∈ otherLetters ++ ['e', 'E'], c ∉ signed sign text := by
  have hall : ∀ c ∈ otherLetters ++ ['e', 'E'], Text.isDigit 10 c = false ∧ c ≠ '_' ∧ c ≠ '-' :=
    List.forall_iff_forall_mem.mp (by decide)
  intro c hc
  obtain ⟨hdigit, hunder, hminus⟩ := hall c hc
  exact not_mem_signed (h.not_mem hdigit hunder) hminus

/-- A word of digits is no name like `inf`, so it is left to be read as an integer. -/
theorem special?_eq_none (h : Digits 10 digits text) : special? (signed sign text) = none := by
  obtain ⟨d, more, rfl, -, hd⟩ := h.head
  have hne : ∀ c word, Text.isDigit 10 c = false → d :: more ≠ c :: word := by
    rintro c word hc ⟨⟩
    rw [hd] at hc
    cases hc
  have hinf : d :: more ≠ "inf".toList := hne 'i' ['n', 'f'] (by decide)
  have hnan : d :: more ≠ "nan".toList := hne 'n' ['a', 'n'] (by decide)
  unfold special?
  rw [minus_signed_digits h]
  dsimp only
  rw [if_neg hinf, if_neg hnan]

/-- An integer is read as the number that its digits stand for, provided it is in range. -/
theorem integer?_eq (h : Digits 10 digits text) (hwhole : Whole digits) :
    integer? (signed sign text) =
      (inRange (sign.apply (Text.numberOf 10 digits))).map .integer := by
  unfold integer?
  rw [minus_signed_digits h]
  dsimp only
  rw [digits?_eq h (Or.inr hwhole)]

/-- The value of a decimal number is rounded once, from all of its digits with the point moved
behind the last of them. -/
theorem decimal?_eq {fraction : List Char} {x : Binary64}
    (hx : x = Binary64.ofDecimal sign (Text.numberOf 10 (digits ++ fraction)) (e - fraction.length))
    (hfinite : x.isFinite = true) : decimal? sign digits fraction e = some (.float x) := by
  subst hx
  exact if_pos hfinite

/-- In another base an integer is read likewise. It has no sign, so only the upper end of the range
can be missed. -/
theorem basedInteger?_eq {base : Nat} (h : Digits base digits text)
    (hrange : Text.numberOf base digits < 2 ^ 63) :
    basedInteger? base text = some (.integer (Text.numberOf base digits)) := by
  unfold basedInteger?
  rw [digits?_eq h (Or.inl rfl)]
  dsimp only
  rw [inRange_of (by constructor <;> omega)]
  rfl

/-- A number without a point is told by the letter of its exponent, which is looked for in all of
the first word, sign and digits included. -/
theorem number?_of_exponential {x : Binary64} (h : Digits 10 digits text) (hwhole : Whole digits)
    (he : Exponent e suffix more) (hx : x = Binary64.ofDecimal sign (Text.numberOf 10 digits) e)
    (hfinite : x.isFinite = true) :
    number? (signed sign (text ++ suffix)) (more ++ rest) = some (.float x, rest) := by
  -- Neither the digits nor the exponent have one of the letters, and the sign is none of them.
  have hbased : ∀ c ∈ otherLetters, c ∉ signed sign (text ++ suffix) := by
    intro c hc
    exact not_mem_signed_append (h.not_mem_letters sign c (List.mem_append_left _ hc))
      (he.not_mem c hc)
  have hletters : ((signed sign (text ++ suffix)).contains 'e' ||
      (signed sign (text ++ suffix)).contains 'E') = true := by
    obtain ⟨letter, tail, rfl, hletter⟩ := he.head
    rcases hletter with rfl | rfl <;> cases sign <;> simp [signed]
  have hdecimal : decimal? sign digits [] e = some (.float x) := by
    refine decimal?_eq ?_ hfinite
    rw [List.append_nil, hx]
    simp
  rw [number?_of_not_based hbased, hletters, if_pos rfl]
  simp [exponential?, minus_signed_append h,
    digits?_append h (Or.inr hwhole) fun c => he.head_not_digit, exponent?_of_exponent he, hdecimal]

/-- A number with a point must not have that letter in its first word; the exponent, if there is
one, is in the word behind the point. -/
theorem number?_of_fractional {fraction text' : List Char} {x : Binary64}
    (h : Digits 10 digits text) (hwhole : Whole digits) (h' : Digits 10 fraction text')
    (he : Exponent e suffix more ∨ e = 0 ∧ suffix = [] ∧ more = [])
    (hx : x = Binary64.ofDecimal sign (Text.numberOf 10 (digits ++ fraction)) (e - fraction.length))
    (hfinite : x.isFinite = true) :
    number? (signed sign text) (.mark '.' :: .word (text' ++ suffix) :: (more ++ rest)) =
      some (.float x, rest) := by
  have hletters := h.not_mem_letters sign
  have hbased : ∀ c ∈ otherLetters, c ∉ signed sign text :=
    fun c hc => hletters c (List.mem_append_left _ hc)
  have hplain : ((signed sign text).contains 'e' || (signed sign text).contains 'E') = false := by
    simp [hletters 'e' (by decide), hletters 'E' (by decide)]
  have hexponent : exponent? suffix (more ++ rest) = some (e, rest) := by
    rcases he with he | ⟨rfl, rfl, rfl⟩
    · exact exponent?_of_exponent he
    · rfl
  have hsuffix : ∀ c, suffix.head? = some c → Text.isDigit 10 c = false ∧ c ≠ '_' := by
    rcases he with he | ⟨-, rfl, -⟩
    · exact fun c => he.head_not_digit
    · intro c hc
      cases hc
  rw [number?_of_not_based hbased, hplain, if_neg (by simp)]
  show fractional? (signed sign text) (text' ++ suffix) (more ++ rest) = some (.float x, rest)
  simp [fractional?, minus_signed_digits h, digits?_eq h (Or.inr hwhole),
    digits?_append h' (Or.inl rfl) hsuffix, hexponent, decimal?_eq hx hfinite]

/-- **A number is read**, whatever follows it, if it ends there. One case for each way to write one;
the two that are decimal numbers have lemmas of their own above. -/
theorem number?_of_numeral (h : Numeral sign v cs more) (hrest : Follows rest) :
    number? (signed sign cs) (more ++ rest) = some (v, rest) := by
  have hpoint : ∀ t, rest.head? = some t → t ≠ .mark '.' := fun t ht => (hrest.head t ht).1
  cases h with
  | integer h hwhole hi hrange =>
    rw [List.nil_append, number?_of_word (h.not_mem_letters sign) hpoint, special?_eq_none h]
    dsimp only
    rw [integer?_eq h hwhole, ← hi, inRange_of hrange]
    rfl
  | @based base letter digits text hsign hbase h hrange =>
    subst hsign
    have hread : (basedInteger? base text).map (·, rest) =
        some (.integer (Text.numberOf base digits), rest) := by
      rw [basedInteger?_eq h hrange]
      rfl
    simp only [List.mem_cons, Prod.mk.injEq, List.not_mem_nil, or_false] at hbase
    rcases hbase with ⟨rfl, rfl⟩ | ⟨rfl, rfl⟩ | ⟨rfl, rfl⟩ <;> exact hread
  | infinite =>
    -- The letters of the two names are none of those that would be looked for.
    have hletters : ∀ c ∈ otherLetters ++ ['e', 'E'], c ∉ signed sign "inf".toList := by
      cases sign <;> exact List.forall_iff_forall_mem.mp (by decide)
    rw [List.nil_append, number?_of_word hletters hpoint]
    cases sign <;> rfl
  | nan =>
    have hletters : ∀ c ∈ otherLetters ++ ['e', 'E'], c ∉ signed sign "nan".toList := by
      cases sign <;> exact List.forall_iff_forall_mem.mp (by decide)
    rw [List.nil_append, number?_of_word hletters hpoint]
    cases sign <;> rfl
  | exponential h hwhole he hx hfinite => exact number?_of_exponential h hwhole he hx hfinite
  | fractional h hwhole h' he hx hfinite => exact number?_of_fractional h hwhole h' he hx hfinite

/-! ## Words that begin a number -/

/-- A string stands inside whatever it is put into. It is needed for the exponents with a minus
sign, which excuse that sign. -/
theorem containsRun_append (run front back : List Char) :
    containsRun run (front ++ (run ++ back)) = true := by
  have hbegins : ∀ tail, containsRun run (run ++ tail) = true := by
    intro tail
    cases htext : run ++ tail with
    | nil =>
      obtain ⟨rfl, -⟩ := List.append_eq_nil_iff.mp htext
      rfl
    | cons c cs =>
      have hrun : run <+: c :: cs := htext ▸ List.prefix_append run tail
      rw [containsRun, List.isPrefixOf_iff_prefix.mpr hrun]
      rfl
  induction front with
  | nil => exact hbegins back
  | cons c front ih =>
    rw [List.cons_append, containsRun, ih, Bool.or_true]

/-- Either of two letters makes a word look like a date, and so does a minus sign, but not one in
front, nor one after the letter of an exponent. -/
theorem looksLikeDate_eq_false (hletters : 'T' ∉ cs ∧ 't' ∉ cs)
    (hminus : '-' ∉ cs.drop 1 ∨ containsRun ['e', '-'] cs = true ∨
      containsRun ['E', '-'] cs = true) :
    looksLikeDate cs = false := by
  unfold looksLikeDate
  rcases hminus with h | h | h
  · have hdrop : (cs.drop 1).contains '-' = false := by simpa using h
    rw [hdrop]
    simp [hletters]
  · simp [hletters, h]
  · simp [hletters, h]

/-- A sign in front changes nothing about that: it is dropped before minus signs are looked for, and
exponents are found behind it as well. -/
theorem minus_of_signed {body : List Char}
    (h : '-' ∉ body ∨ containsRun ['e', '-'] body = true ∨ containsRun ['E', '-'] body = true) :
    '-' ∉ (signed sign body).drop 1 ∨ containsRun ['e', '-'] (signed sign body) = true ∨
      containsRun ['E', '-'] (signed sign body) = true := by
  cases sign with
  | plus => exact h.imp_left fun hnot hmem => hnot (List.mem_of_mem_drop hmem)
  | minus =>
    refine h.imp id (Or.imp (fun hrun => ?_) fun hrun => ?_)
    · rw [signed, containsRun, hrun, Bool.or_true]
    · rw [signed, containsRun, hrun, Bool.or_true]

/-- There is no minus sign among digits. -/
theorem Digits.no_minus (h : Digits 10 digits text) : '-' ∉ text :=
  h.not_mem (by decide) (by decide)

/-- And one in an exponent stands behind its letter. -/
theorem Exponent.minus (h : Exponent e suffix more) (front : List Char) (hfront : '-' ∉ front) :
    '-' ∉ front ++ suffix ∨ containsRun ['e', '-'] (front ++ suffix) = true ∨
      containsRun ['E', '-'] (front ++ suffix) = true := by
  cases h with
  | @word letter sign digits text hletter h =>
    cases sign with
    | plus =>
      left
      have hnot := h.no_minus
      rcases hletter with rfl | rfl <;> simp [signed, hfront, hnot]
    | minus =>
      right
      rcases hletter with rfl | rfl
      · exact Or.inl (containsRun_append ['e', '-'] front text)
      · exact Or.inr (containsRun_append ['E', '-'] front text)
  | plus hletter =>
    left
    rcases hletter with rfl | rfl <;> simp [hfront]

/-- **A number does not look like a date.** Dates are told first, so without this a number would
never be come to (`wordValue?_of_numeral`). -/
theorem looksLikeDate_of_numeral (h : Numeral sign v cs more) :
    looksLikeDate (signed sign cs) = false := by
  have hletters : ∀ {digits text : List Char}, Digits 10 digits text →
      ∀ c ∈ ['T', 't'], c ∉ signed sign text := by
    intro digits text h c hc
    have hall : ∀ c ∈ ['T', 't'], c ∈ otherLetters ++ ['e', 'E'] :=
      List.forall_iff_forall_mem.mp (by decide)
    exact h.not_mem_letters sign c (hall c hc)
  cases h with
  | integer h =>
    exact looksLikeDate_eq_false ⟨hletters h _ (by decide), hletters h _ (by decide)⟩
      (minus_of_signed (Or.inl h.no_minus))
  | fractional h =>
    exact looksLikeDate_eq_false ⟨hletters h _ (by decide), hletters h _ (by decide)⟩
      (minus_of_signed (Or.inl h.no_minus))
  | exponential h _ he =>
    refine looksLikeDate_eq_false ⟨?_, ?_⟩ (minus_of_signed (he.minus _ h.no_minus))
    · exact not_mem_signed_append (hletters h _ (by decide)) (he.not_mem 'T' (by decide))
    · exact not_mem_signed_append (hletters h _ (by decide)) (he.not_mem 't' (by decide))
  | @based base letter digits text hsign hbase h =>
    subst hsign
    -- Hexadecimal digits go up to `f`, so none of them is a letter of dates either.
    have hnot : ∀ c ∈ ['T', 't', '-'], c ∉ '0' :: letter :: text := by
      intro c hc
      have hdigit : Text.isDigit base c = false ∧ c ≠ '_' ∧ c ≠ '0' ∧ c ≠ letter := by
        have hall : ∀ c ∈ ['T', 't', '-'], ∀ b ∈ [(16, 'x'), (8, 'o'), (2, 'b')],
            Text.isDigit b.1 c = false ∧ c ≠ '_' ∧ c ≠ '0' ∧ c ≠ b.2 :=
          List.forall_iff_forall_mem.mp (by decide)
        exact hall c hc _ hbase
      obtain ⟨hdigit, hunder, hzero, hletter⟩ := hdigit
      simp [hzero, hletter, h.not_mem hdigit hunder]
    exact looksLikeDate_eq_false ⟨hnot _ (by decide), hnot _ (by decide)⟩
      (Or.inl fun hmem => hnot '-' (by decide) (List.mem_of_mem_drop hmem))
  | infinite => cases sign <;> decide
  | nan => cases sign <;> decide

/-- What a number begins with. It is by this that a word is taken for a number or a date at all. -/
theorem head_of_numeral (h : Numeral sign v cs more) :
    signed sign cs = "inf".toList ∨ signed sign cs = "nan".toList ∨
      (signed sign cs).head? = some '-' ∨
      (signed sign cs).head?.any (Text.isDigit 10) = true := by
  cases sign with
  | minus => exact Or.inr (Or.inr (Or.inl rfl))
  | plus =>
    have hdigits : ∀ {digits text : List Char} (suffix : List Char), Digits 10 digits text →
        (text ++ suffix).head?.any (Text.isDigit 10) = true := by
      intro digits text suffix h
      obtain ⟨d, more, rfl, -, hd⟩ := h.head
      exact hd
    cases h with
    | integer h => exact Or.inr (Or.inr (Or.inr (by simpa [signed] using hdigits [] h)))
    | fractional h => exact Or.inr (Or.inr (Or.inr (by simpa [signed] using hdigits [] h)))
    | exponential h => exact Or.inr (Or.inr (Or.inr (hdigits _ h)))
    | based => exact Or.inr (Or.inr (Or.inr rfl))
    | infinite => exact Or.inl rfl
    | nan => exact Or.inr (Or.inl rfl)

/-- A word that begins like a number is a date or a number. The names of the truth values begin
otherwise, so they are not in the way. -/
theorem wordValue?_of_head {ts : List Token}
    (h : cs = "inf".toList ∨ cs = "nan".toList ∨ cs.head? = some '-' ∨
      cs.head?.any (Text.isDigit 10) = true) :
    wordValue? cs ts =
      if looksLikeDate cs then (dropDate false ts).map (.date, ·)
      else
        match ts with
        | .mark ':' :: ts => (dropDate true ts).map (.date, ·)
        | _ => number? cs ts := by
  have htrue : cs ≠ "true".toList := by
    rintro rfl
    revert h
    decide
  have hfalse : cs ≠ "false".toList := by
    rintro rfl
    revert h
    decide
  have hstarts : (cs = "inf".toList || cs = "nan".toList || cs.head? = some '-' ||
      cs.head?.any (Text.isDigit 10)) = true := by
    rcases h with h | h | h | h <;> simp [h]
  unfold wordValue?
  exact (if_neg htrue).trans ((if_neg hfalse).trans (if_pos hstarts))

/-- **A number that begins a value is the value.** A colon would make a time of it: none follows by
assumption, and none is among the tokens of the number, which begin with a point or a plus sign. -/
theorem wordValue?_of_numeral (h : Numeral sign v cs more) (hrest : Follows rest) :
    wordValue? (signed sign cs) (more ++ rest) = some (v, rest) := by
  have hcolon : ∀ t, (more ++ rest).head? = some t → t ≠ .mark ':' := by
    have hnil : ∀ t, rest.head? = some t → t ≠ .mark ':' := fun t ht => (hrest.head t ht).2.1
    cases h with
    | exponential _ _ he =>
      cases he with
      | word => exact hnil
      | plus =>
        rintro t ⟨⟩
        decide
    | fractional =>
      rintro t ⟨⟩
      decide
    | _ => exact hnil
  have hnumber := number?_of_numeral h hrest
  rw [wordValue?_of_head (head_of_numeral h), looksLikeDate_of_numeral h, if_neg (by simp)]
  split
  next ts heq =>
    rw [heq] at hcolon
    exact absurd rfl (hcolon _ rfl)
  next => exact hnumber

end

end Toml
end Beamline
