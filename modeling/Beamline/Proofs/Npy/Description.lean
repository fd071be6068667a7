import Mathlib.Tactic
import Beamline.Npy.Header
import Beamline.Proofs.Text.Digit

/-!
# Descriptions — every way of writing a header's dictionary

What a file says about itself is text, and the same three facts can be written in unboundedly many
ways: the keys in any order, either kind of quote, blanks between any two tokens and around the
whole, a comma after the last entry or none. `Described` is that grammar. It is written as relations
between a value and a text and knows nothing of the reader; the result is that the reader gets back
what was written, whichever way it was (`Described.parse?`, `Described.ofLiteral`).

The reader counts down while it descends, and starts with one more than the text is long. Each rule
of the grammar uses up at least one character for each level it descends, so a text is always
shorter than what is left of the count.
-/

set_option autoImplicit false

namespace Beamline
namespace Npy

/-! ## The grammar -/

/-- Blanks, tabs and form feeds, as many as there are. The grammar has a run of them wherever two
tokens meet. -/
def Blanks (cs : List Char) : Prop := ∀ c ∈ cs, Literal.isBlank c = true

/-- A character that stands for itself between quotes. Either kind of quote is left out, so that
what is plain can stand between both kinds. -/
structure Plain (c : Char) : Prop where
  single : c ≠ '\''
  double : c ≠ '"'
  backslash : c ≠ '\\'
  lineFeed : c ≠ '\n'
  carriageReturn : c ≠ '\r'
  ascii : c.toNat < 0x80

/-- A text that may stand between quotes as it is. -/
def PlainText (cs : List Char) : Prop := ∀ c ∈ cs, Plain c

/-- A text between quotes of either kind, without escapes. There are other ways of writing a string,
with a prefix or with escapes; no descriptor needs them. -/
inductive Quoted (cs : List Char) : List Char → Prop
  | single (plain : PlainText cs) : Quoted cs ('\'' :: cs ++ ['\''])
  | double (plain : PlainText cs) : Quoted cs ('"' :: cs ++ ['"'])

/-- Axis lengths after the opening parenthesis of a tuple, the closing one included. The rules
differ in what follows the first of them, which is what the reader decides by. -/
inductive Lengths : List Nat → List Char → Prop
  | last (n : Nat) {a : List Char} (ha : Blanks a) : Lengths [n] (Nat.toDigits 10 n ++ a ++ [')'])
  | lastComma (n : Nat) {a b : List Char} (ha : Blanks a) (hb : Blanks b) :
      Lengths [n] (Nat.toDigits 10 n ++ a ++ ',' :: b ++ [')'])
  | cons (n : Nat) {a b t : List Char} {m : Nat} {ns : List Nat} (ha : Blanks a) (hb : Blanks b)
      (rest : Lengths (m :: ns) t) :
      Lengths (n :: m :: ns) (Nat.toDigits 10 n ++ a ++ ',' :: b ++ t)

def shapeLiteral (shape : List Nat) : Literal := .tuple (shape.map fun n : Nat => .integer n)

/-- The values of a description. A tuple of one needs a comma that a longer one does not, and is
left out. -/
inductive Spelled : Literal → List Char → Prop
  | string {cs t : List Char} (h : Quoted cs t) : Spelled (.string cs) t
  | true : Spelled (.boolean true) ['T', 'r', 'u', 'e']
  | false : Spelled (.boolean false) ['F', 'a', 'l', 's', 'e']
  | shape {ns : List Nat} {a t : List Char} (ha : Blanks a) (hns : 2 ≤ ns.length)
      (h : Lengths ns t) : Spelled (shapeLiteral ns) ('(' :: a ++ t)

/-- An entry: a key, a colon and a value, with blanks after each. -/
inductive Entry : List Char → Literal → List Char → Prop
  | mk {key kt a b vt c : List Char} {value : Literal} (hk : Quoted key kt) (ha : Blanks a)
      (hb : Blanks b) (hv : Spelled value vt) (hc : Blanks c) :
      Entry key value (kt ++ a ++ ':' :: b ++ vt ++ c)

/-- Entries after the opening brace of a dictionary, the closing one included. -/
inductive Entries : List (List Char × Literal) → List Char → Prop
  | last {key t : List Char} {value : Literal} (h : Entry key value t) :
      Entries [(key, value)] (t ++ ['\x7d'])
  | lastComma {key t a : List Char} {value : Literal} (h : Entry key value t) (ha : Blanks a) :
      Entries [(key, value)] (t ++ ',' :: a ++ ['\x7d'])
  | cons {key t a u : List Char} {value : Literal} {es : List (List Char × Literal)}
      (h : Entry key value t) (ha : Blanks a) (rest : Entries es u) :
      Entries ((key, value) :: es) (t ++ ',' :: a ++ u)

/-- The three entries of a description, in the order of their keys. All three must be there, and no
others. -/
def facts (descriptor : List Char) (columnMajor : Bool) (shape : List Nat) :
    List (List Char × Literal) :=
  [("descr".toList, .string descriptor), ("fortran_order".toList, .boolean columnMajor),
    ("shape".toList, shapeLiteral shape)]

/-- A text that describes an array: a dictionary of its three facts, in any order, with blanks
around it. -/
inductive Described (descriptor : List Char) (columnMajor : Bool) (shape : List Nat) :
    List Char → Prop
  | mk {a b t c : List Char} {es : List (List Char × Literal)} (ha : Blanks a) (hb : Blanks b)
      (perm : es.Perm (facts descriptor columnMajor shape)) (h : Entries es t) (hc : Blanks c) :
      Described descriptor columnMajor shape (a ++ '\x7b' :: b ++ t ++ c)

/-! ## Blanks -/

namespace Literal

/-- A text that does not start with a blank. The reader skips blanks before every token, and a run
of blanks is skipped as a whole only if the text behind it is solid. -/
def Solid (cs : List Char) : Prop := ∀ c ∈ cs.head?, isBlank c = false

theorem skip_eq {cs : List Char} (h : Solid cs) : skip cs = cs := by
  cases cs with
  | nil => rfl
  | cons c cs =>
    have hc : isBlank c = false := h c rfl
    unfold skip
    rw [List.dropWhile_cons_of_neg (by simp [hc])]

/-- Blanks are skipped up to what is behind them. This and `skip_eq` are all that is known of blanks
from here on. -/
theorem skip_blanks {a cs : List Char} (ha : Blanks a) (h : Solid cs) : skip (a ++ cs) = cs := by
  unfold skip
  rw [List.dropWhile_append_of_pos ha]
  exact skip_eq h

theorem skip_all {a : List Char} (ha : Blanks a) : skip a = [] := by
  have h : skip (a ++ []) = [] := skip_blanks ha (by rintro c ⟨⟩)
  rwa [List.append_nil] at h

theorem solid_cons {c : Char} {cs : List Char} (h : isBlank c = false) : Solid (c :: cs) := by
  rintro d ⟨⟩
  exact h

/-! ## Numbers -/

/-- A text that cannot go on a number: after any blanks, a comma or a closing parenthesis. The
reader looks past the blanks for a sign, since a number may be a term of a sum. -/
inductive AfterNumber : List Char → Prop
  | comma {a rest : List Char} (ha : Blanks a) : AfterNumber (a ++ ',' :: rest)
  | close {a rest : List Char} (ha : Blanks a) : AfterNumber (a ++ ')' :: rest)

/-- A character right after a number: a blank, a comma or a closing parenthesis. What makes more of
a number has no blank in front of it, but for a sign, so one character is enough to tell. -/
def EndsNumber (c : Char) : Prop := isBlank c = true ∨ c = ',' ∨ c = ')'

theorem EndsNumber.isDigit {c : Char} (h : EndsNumber c) : Text.isDigit 10 c = false := by
  unfold EndsNumber isBlank at h
  simp only [Bool.or_eq_true, beq_iff_eq] at h
  rcases h with ((rfl | rfl) | rfl) | rfl | rfl <;> rfl

/-- None of the characters that could make more of a number: an underscore, a point, an exponent,
the mark of an imaginary number, or the letter of another base after a zero. -/
theorem EndsNumber.ne {c : Char} (h : EndsNumber c) :
    c ≠ '_' ∧ c ≠ '.' ∧ c ≠ 'e' ∧ c ≠ 'E' ∧ c ≠ 'j' ∧ c ≠ 'J' ∧ c ≠ 'x' ∧ c ≠ 'X' ∧ c ≠ 'o' ∧
      c ≠ 'O' ∧ c ≠ 'b' ∧ c ≠ 'B' := by
  unfold EndsNumber isBlank at h
  simp only [Bool.or_eq_true, beq_iff_eq] at h
  rcases h with ((rfl | rfl) | rfl) | rfl | rfl <;> decide

/-- There is a character after the number, and it ends the number. A number at the very end of a
text does not occur in a description. -/
theorem AfterNumber.exists_cons {rest : List Char} (h : AfterNumber rest) :
    ∃ c more, rest = c :: more ∧ EndsNumber c := by
  cases h with
  | @comma a more ha =>
    cases a with
    | nil => exact ⟨',', more, rfl, Or.inr (Or.inl rfl)⟩
    | cons c a => exact ⟨c, a ++ ',' :: more, rfl, Or.inl (ha c List.mem_cons_self)⟩
  | @close a more ha =>
    cases a with
    | nil => exact ⟨')', more, rfl, Or.inr (Or.inr rfl)⟩
    | cons c a => exact ⟨c, a ++ ')' :: more, rfl, Or.inl (ha c List.mem_cons_self)⟩

theorem signs_blanks {a cs : List Char} (ha : Blanks a) : signs (a ++ cs) = signs cs := by
  induction a with
  | nil => rfl
  | cons c a ih =>
    rw [List.cons_append, signs, if_pos (ha c List.mem_cons_self)]
    exact ih fun d hd => ha d (List.mem_cons_of_mem c hd)

theorem signs_of_ne {c : Char} {cs : List Char} (hb : isBlank c = false) (hp : c ≠ '+')
    (hm : c ≠ '-') : signs (c :: cs) = (false, false, c :: cs) := by
  rw [signs, if_neg (by simp [hb]), if_neg hp, if_neg hm]

/-- No sign follows, so the sum has one term. -/
theorem AfterNumber.signs {rest : List Char} (h : AfterNumber rest) :
    (signs rest).2.1 = false := by
  cases h with
  | comma ha =>
    rw [signs_blanks ha]
    rfl
  | close ha =>
    rw [signs_blanks ha]
    rfl

theorem ne_underscore_of_isDigit {c : Char} (h : Text.isDigit 10 c = true) : c ≠ '_' := by
  rintro rfl
  cases h

theorem takeDigits_stop {c : Char} {rest : List Char} (hc : EndsNumber c) :
    takeDigits 10 (c :: rest) = ([], c :: rest) := by
  have hne := hc.ne.1
  cases rest with
  | nil => simp [takeDigits, hc.isDigit]
  | cons d rest => simp [takeDigits, hne, hc.isDigit]

theorem takeDigits_append {ds : List Char} {c : Char} {rest : List Char}
    (hds : ∀ d ∈ ds, Text.isDigit 10 d = true) (hc : EndsNumber c) :
    takeDigits 10 (ds ++ c :: rest) = (ds, c :: rest) := by
  induction ds with
  | nil => exact takeDigits_stop hc
  | cons d ds ih =>
    have hd := hds d List.mem_cons_self
    have hne := ne_underscore_of_isDigit hd
    rw [List.cons_append, takeDigits, if_pos hd,
      ih fun e he => hds e (List.mem_cons_of_mem d he)]
    intro e es he
    exact absurd he hne

/-- Digits up to the end of a number are all of its digits. They are read in three places, as the
digits of an imaginary number, of one with a point and of an integer, in this order. -/
theorem digits_append {d : Char} {ds : List Char} {c : Char} {rest : List Char}
    (hds : ∀ e ∈ d :: ds, Text.isDigit 10 e = true) (hc : EndsNumber c) :
    digits (d :: ds ++ c :: rest) = (d :: ds, c :: rest) := by
  have hne := ne_underscore_of_isDigit (hds d List.mem_cons_self)
  rw [List.cons_append, digits]
  · exact takeDigits_append hds hc
  · intro cs h
    exact absurd (List.cons.inj h).1 hne

/-- Neither a point nor an exponent follows, so the number is no floating point number. -/
theorem float?_digits {d : Char} {ds : List Char} {c : Char} {rest : List Char}
    (hds : ∀ e ∈ d :: ds, Text.isDigit 10 e = true) (hc : EndsNumber c) :
    float? (d :: ds ++ c :: rest) = Option.none := by
  obtain ⟨-, hpoint, he, hE, -⟩ := hc.ne
  unfold float?
  rw [digits_append hds hc]
  simp [hpoint, takeExponent, he, hE]

/-- Nor is it imaginary, though its digits may well be read as a number. -/
theorem imaginary?_digits {d : Char} {ds : List Char} {c : Char} {rest : List Char}
    (hds : ∀ e ∈ d :: ds, Text.isDigit 10 e = true) (hc : EndsNumber c) :
    imaginary? (d :: ds ++ c :: rest) = Option.none := by
  obtain ⟨-, -, -, -, hj, hJ, -⟩ := hc.ne
  unfold imaginary?
  rw [float?_digits hds hc, digits_append hds hc]
  cases hparse : Binary64.parse? (d :: ds) with
  | none => simp [hparse]
  | some x => simp [hparse, hj, hJ]

/-- So it is an integer, read to its last digit. A zero in front would announce another base if a
letter came next. -/
theorem integer?_digits {d : Char} {ds : List Char} {c : Char} {rest : List Char}
    (hds : ∀ e ∈ d :: ds, Text.isDigit 10 e = true) (hc : EndsNumber c) :
    integer? (d :: ds ++ c :: rest) = some (Text.numberOf 10 (d :: ds), c :: rest) := by
  have hdecimal : decimalInteger (d :: ds ++ c :: rest) =
      some (Text.numberOf 10 (d :: ds), c :: rest) := by
    unfold decimalInteger
    rw [digits_append hds hc]
  -- What follows a leading zero is a digit or the end of the number, so it is not a prefix.
  obtain ⟨e, more, hmore, hprefix⟩ : ∃ e more, ds ++ c :: rest = e :: more ∧
      e ≠ 'x' ∧ e ≠ 'X' ∧ e ≠ 'o' ∧ e ≠ 'O' ∧ e ≠ 'b' ∧ e ≠ 'B' := by
    cases ds with
    | nil => exact ⟨c, rest, rfl, hc.ne.2.2.2.2.2.2⟩
    | cons e ds =>
      have he := hds e (by simp)
      refine ⟨e, ds ++ c :: rest, rfl, ?_⟩
      refine ⟨?_, ?_, ?_, ?_, ?_, ?_⟩ <;> rintro rfl <;> cases he
  obtain ⟨hx, hX, ho, hO, hb, hB⟩ := hprefix
  unfold integer?
  rw [hdecimal, List.cons_append, hmore]
  by_cases hd : d = '0'
  · subst hd
    simp [hx, hX, ho, hO, hb, hB]
  · simp [hd]

/-- The digits of a number are read as an integer, the last of the three kinds of number that are
tried. -/
theorem number?_digits {d : Char} {ds : List Char} {c : Char} {rest : List Char}
    (hds : ∀ e ∈ d :: ds, Text.isDigit 10 e = true) (hc : EndsNumber c) :
    number? (d :: ds ++ c :: rest) =
      some (integer (Text.numberOf 10 (d :: ds)), c :: rest) := by
  unfold number?
  rw [imaginary?_digits hds hc, float?_digits hds hc, integer?_digits hds hc]
  rfl

theorem exists_toDigits (n : Nat) : ∃ d ds, Nat.toDigits 10 n = d :: ds :=
  List.exists_cons_of_ne_nil Nat.toDigits_ne_nil

theorem isDigit_head_toDigits {n : Nat} {d : Char} {ds : List Char}
    (h : Nat.toDigits 10 n = d :: ds) : Text.isDigit 10 d = true := by
  refine Text.isDigit_of_mem_toDigits (n := n) ?_
  rw [h]
  exact List.mem_cons_self

/-- A digit starts no blank, sign, quote, bracket or word. The reader tells the values apart by
their first character, so each of these is a branch that is not taken. -/
theorem ne_of_isDigit {d : Char} (h : Text.isDigit 10 d = true) :
    isBlank d = false ∧ d ≠ '+' ∧ d ≠ '-' ∧ d ≠ '\'' ∧ d ≠ '"' ∧ d ≠ '(' ∧ d ≠ ')' ∧ d ≠ '[' ∧
      d ≠ '\x7b' ∧ d ≠ 'b' ∧ d ≠ 'B' ∧ d ≠ 'T' ∧ d ≠ 'F' ∧ d ≠ 'N' := by
  refine ⟨?_, ?_⟩
  · unfold isBlank
    simp only [Bool.or_eq_false_iff, beq_eq_false_iff_ne]
    refine ⟨⟨?_, ?_⟩, ?_⟩ <;> rintro rfl <;> cases h
  · refine ⟨?_, ?_, ?_, ?_, ?_, ?_, ?_, ?_, ?_, ?_, ?_, ?_, ?_⟩ <;> rintro rfl <;> cases h

/-- The digits of a number are read as the number, a sum of one term. -/
theorem sum_toDigits (n : Nat) {rest : List Char} (h : AfterNumber rest) :
    sum (Nat.toDigits 10 n ++ rest) = some (integer n, rest) := by
  obtain ⟨d, ds, hdigits⟩ := exists_toDigits n
  obtain ⟨c, more, rfl, hc⟩ := h.exists_cons
  have hds : ∀ e ∈ d :: ds, Text.isDigit 10 e = true := by
    intro e he
    rw [← hdigits] at he
    exact Text.isDigit_of_mem_toDigits he
  obtain ⟨hblank, hplus, hminus, -⟩ := ne_of_isDigit (hds d List.mem_cons_self)
  have hterm : term (integer 0) (Nat.toDigits 10 n ++ c :: more) = some (integer n, c :: more) := by
    unfold term
    rw [hdigits, List.cons_append, signs_of_ne hblank hplus hminus, ← List.cons_append]
    dsimp only
    rw [number?_digits hds hc, ← hdigits, Text.numberOf_toDigits]
    simp [combine]
  simp [sum, hterm, terms, h.signs]

/-! ## Values -/

/-- Read as a value, the digits of a number are the number. Only the last branch of the reader is
left for a text that begins with a digit (`ne_of_isDigit`). -/
theorem value_toDigits (n : Nat) {rest : List Char} (h : AfterNumber rest) (fuel : Nat) :
    value (fuel + 1) (Nat.toDigits 10 n ++ rest) = some (integer n, rest) := by
  obtain ⟨d, ds, hdigits⟩ := exists_toDigits n
  obtain ⟨-, -, -, hsingle, hdouble, hparen, -, hbracket, hbrace, hb, hB, hT, hF, hN⟩ :=
    ne_of_isDigit (isDigit_head_toDigits hdigits)
  obtain ⟨c, more, hrest, -⟩ := h.exists_cons
  obtain ⟨e, tail, htail⟩ : ∃ e tail, ds ++ rest = e :: tail := by
    rw [hrest]
    cases ds with
    | nil => exact ⟨c, more, rfl⟩
    | cons e ds => exact ⟨e, ds ++ c :: more, rfl⟩
  have hsum := sum_toDigits n h
  rw [hdigits, List.cons_append, htail] at hsum ⊢
  rw [value]
  · simp [keyword?, hb, hB, hT.symm, hF.symm, hN.symm, hsum]
  all_goals assumption

/-- Plain text is read up to its closing quote, a character at a time. The count is the reader's own
and starts above the length of the text. -/
theorem quoted_plain {quote : Char} (hq : quote = '\'' ∨ quote = '"') {cs : List Char}
    (hcs : PlainText cs) (rest : List Char) (fuel : Nat) (hfuel : cs.length < fuel) :
    quoted false quote fuel (cs ++ quote :: rest) = some (cs, rest) := by
  induction cs generalizing fuel with
  | nil =>
    obtain ⟨fuel, rfl⟩ := Nat.exists_eq_add_one_of_ne_zero (Nat.ne_of_gt hfuel)
    simp [quoted]
  | cons c cs ih =>
    obtain ⟨fuel, rfl⟩ := Nat.exists_eq_add_one_of_ne_zero (Nat.ne_of_gt (Nat.zero_lt_of_lt hfuel))
    have hc := hcs c List.mem_cons_self
    have hne : c ≠ quote := by
      rcases hq with rfl | rfl
      · exact hc.single
      · exact hc.double
    have hrest := ih (fun d hd => hcs d (List.mem_cons_of_mem c hd)) fuel
      (Nat.lt_of_succ_lt_succ hfuel)
    simp [quoted, hne, hc.backslash, hc.lineFeed, hc.carriageReturn, hrest]

theorem value_quoted {cs t : List Char} (h : Quoted cs t) (rest : List Char) (fuel : Nat) :
    value (fuel + 1) (t ++ rest) = some (string cs, rest) := by
  cases h with
  | single plain =>
    have hread := quoted_plain (Or.inl rfl) plain rest ((cs ++ '\'' :: rest).length + 1)
      (by rw [List.length_append]; omega)
    simp only [List.cons_append, List.append_assoc, List.nil_append]
    rw [value, hread]
    rfl
  | double plain =>
    have hread := quoted_plain (Or.inr rfl) plain rest ((cs ++ '"' :: rest).length + 1)
      (by rw [List.length_append]; omega)
    simp only [List.cons_append, List.append_assoc, List.nil_append]
    rw [value, hread]
    rfl

theorem solid_toDigits (n : Nat) (rest : List Char) : Solid (Nat.toDigits 10 n ++ rest) := by
  obtain ⟨d, ds, hdigits⟩ := exists_toDigits n
  rw [hdigits]
  exact solid_cons (ne_of_isDigit (isDigit_head_toDigits hdigits)).1

theorem Lengths.solid {ns : List Nat} {t : List Char} (h : Lengths ns t) (rest : List Char) :
    Solid (t ++ rest) := by
  cases h <;> simp only [List.append_assoc] <;> exact solid_toDigits _ _

/-- What becomes of an item, by what follows it. The reader has this inside its recursion; said
apart, an item is read in one step and the rules of `Lengths` differ in the next one only. -/
def afterItem (fuel : Nat) (x : Literal) : List Char → Option (List Literal × Bool × List Char)
  | [] => Option.none
  | c :: rest =>
    if c = ')' then some ([x], false, rest)
    else if c = ',' then
      match items fuel ')' (skip rest) with
      | some ([], _, rest) => some ([x], true, rest)
      | some (xs, comma, rest) => some (x :: xs, comma, rest)
      | Option.none => Option.none
    else Option.none

/-- One length is read, and what follows it decides. The items and the value inside take a level
each, hence the two above `fuel`. -/
theorem items_toDigits (n : Nat) {rest : List Char} (h : AfterNumber rest) (fuel : Nat) :
    items (fuel + 2) ')' (Nat.toDigits 10 n ++ rest) =
      afterItem (fuel + 1) (integer n) (skip rest) := by
  have hvalue := value_toDigits n h fuel
  obtain ⟨d, ds, hdigits⟩ := exists_toDigits n
  have hclose := (ne_of_isDigit (isDigit_head_toDigits hdigits)).2.2.2.2.2.2.1
  rw [hdigits, List.cons_append] at hvalue ⊢
  rw [items]
  dsimp only
  rw [if_neg hclose, hvalue]
  rfl

/-- The lengths of a tuple are read back. Its items are as many as they are. Whether there was a
comma after the last makes a difference for a tuple of one only, so it is left open here. -/
theorem items_lengths {ns : List Nat} {t : List Char} (h : Lengths ns t) (rest : List Char)
    (fuel : Nat) (hfuel : t.length < fuel) :
    ∃ comma, items fuel ')' (t ++ rest) = some (ns.map fun n : Nat => integer n, comma, rest) := by
  induction h generalizing fuel with
  | last n ha =>
    obtain ⟨fuel, rfl⟩ : ∃ k, fuel = k + 2 := ⟨fuel - 2, by simp at hfuel; omega⟩
    simp only [List.append_assoc, List.singleton_append]
    rw [items_toDigits n (.close ha), skip_blanks ha (solid_cons rfl)]
    exact ⟨false, rfl⟩
  | @lastComma n a b ha hb =>
    obtain ⟨fuel, rfl⟩ : ∃ k, fuel = k + 2 := ⟨fuel - 2, by simp at hfuel; omega⟩
    simp only [List.append_assoc, List.cons_append, List.nil_append]
    rw [items_toDigits n (.comma ha), skip_blanks ha (solid_cons rfl), afterItem]
    rw [skip_blanks hb (solid_cons rfl)]
    exact ⟨true, by simp [items]⟩
  | @cons n a b t m ns ha hb hrest ih =>
    obtain ⟨fuel, rfl⟩ : ∃ k, fuel = k + 2 := ⟨fuel - 2, by simp at hfuel; omega⟩
    obtain ⟨comma, hitems⟩ := ih (fuel + 1) (by simp at hfuel; omega)
    simp only [List.append_assoc, List.cons_append]
    rw [items_toDigits n (.comma ha), skip_blanks ha (solid_cons rfl), afterItem]
    rw [skip_blanks hb (Lengths.solid hrest rest), hitems]
    exact ⟨comma, rfl⟩

theorem Spelled.solid {x : Literal} {t : List Char} (h : Spelled x t) (rest : List Char) :
    Solid (t ++ rest) := by
  cases h with
  | string h => cases h <;> exact solid_cons rfl
  | true | false | shape => exact solid_cons rfl

theorem Quoted.solid {cs t : List Char} (h : Quoted cs t) (rest : List Char) :
    Solid (t ++ rest) := by
  cases h <;> exact solid_cons rfl

/-- A text that is read as a value, whatever follows it. That it is solid is part of this: blanks
may stand before a value, and skipping them must stop there. -/
structure Reads (x : Literal) (t : List Char) : Prop where
  solid (rest : List Char) : Solid (t ++ rest)
  value (rest : List Char) {fuel : Nat} (hfuel : t.length < fuel) :
    value fuel (t ++ rest) = some (x, rest)

/-- **A value is read back, whatever follows it.** The count need only exceed the length of the
text, as a value never descends further than it is long. -/
theorem reads_of_spelled {x : Literal} {t : List Char} (h : Spelled x t) : Reads x t := by
  refine ⟨Spelled.solid h, fun rest fuel hfuel => ?_⟩
  obtain ⟨fuel, rfl⟩ := Nat.exists_eq_add_one_of_ne_zero (Nat.ne_of_gt (Nat.zero_lt_of_lt hfuel))
  cases h with
  | string h => exact value_quoted h rest fuel
  | true =>
    simp [value, keyword?]
    rfl
  | false =>
    simp [value, keyword?]
    rfl
  | @shape ns a t ha hns h =>
    obtain ⟨comma, hitems⟩ := items_lengths h rest fuel (by simp at hfuel; omega)
    obtain ⟨n, m, ns, rfl⟩ : ∃ n m ms, ns = n :: m :: ms := by
      match ns, hns with
      | n :: m :: ms, _ => exact ⟨n, m, ms, rfl⟩
    simp only [List.cons_append, List.append_assoc]
    rw [value, skip_blanks ha (Lengths.solid h rest), hitems]
    rfl

/-- One length and the comma that a tuple of one needs. It is no case of `Spelled`, whose shapes
have two axes or more; plain vectors are written so (`Npy/Vector`). -/
theorem reads_single (n : Nat) :
    Reads (shapeLiteral [n]) ('(' :: (Nat.toDigits 10 n ++ [',', ')'])) := by
  refine ⟨fun rest => solid_cons rfl, fun rest fuel hfuel => ?_⟩
  obtain ⟨fuel, rfl⟩ : ∃ k, fuel = k + 3 := ⟨fuel - 3, by simp at hfuel; omega⟩
  have hcomma : AfterNumber ([] ++ ',' :: ')' :: rest) := .comma (by rintro c ⟨⟩)
  have hitems : items (fuel + 2) ')' (Nat.toDigits 10 n ++ ',' :: ')' :: rest) =
      some ([integer n], Bool.true, rest) := by
    rw [List.nil_append] at hcomma
    rw [items_toDigits n hcomma, skip_eq (solid_cons rfl), afterItem,
      show skip (')' :: rest) = ')' :: rest from skip_eq (solid_cons rfl)]
    simp [items]
  simp only [List.cons_append, List.append_assoc, List.nil_append]
  rw [value, skip_eq (solid_toDigits n _), hitems]
  rfl

/-! ## Entries

Being read back is passed on from a value to its entry and from entries to the dictionary, whichever
way they are put together, so a grammar only has to say how. -/

/-- What becomes of an entry, by what follows it: the closing brace, or a comma and the entries that
are left. -/
def afterEntry (fuel : Nat) (entry : Literal × Literal) :
    List Char → Option (List (Literal × Literal) × List Char)
  | '\x7d' :: rest => some ([entry], rest)
  | ',' :: rest => (entries fuel (skip rest)).map fun (es, rest) => (entry :: es, rest)
  | _ => Option.none

/-- A text that is read as an entry, whatever else than a blank follows it. Blanks after the value
are the entry's own, so the next character is the one that decides. -/
structure ReadsEntry (entry : Literal × Literal) (t : List Char) : Prop where
  solid (rest : List Char) : Solid (t ++ rest)
  entries {c : Char} (hc : isBlank c = Bool.false) (rest : List Char) {fuel : Nat}
    (hfuel : t.length < fuel) :
    entries (fuel + 1) (t ++ c :: rest) = afterEntry fuel entry (c :: rest)

/-- A key, a colon and a value that is read back make an entry that is, with blanks between any of
them. -/
theorem Reads.entry {key kt a b vt d : List Char} {x : Literal} (hk : Quoted key kt) (ha : Blanks a)
    (hb : Blanks b) (hv : Reads x vt) (hd : Blanks d) :
    ReadsEntry (string key, x) (kt ++ a ++ ':' :: b ++ vt ++ d) := by
  refine ⟨fun rest => ?_, fun {c} hc rest {fuel} hfuel => ?_⟩
  · simp only [List.append_assoc]
    exact Quoted.solid hk _
  · obtain ⟨fuel, rfl⟩ := Nat.exists_eq_add_one_of_ne_zero (Nat.ne_of_gt (Nat.zero_lt_of_lt hfuel))
    have hkey := value_quoted hk (a ++ (':' :: (b ++ (vt ++ (d ++ c :: rest))))) fuel
    have hvalue := hv.value (d ++ c :: rest)
      (show vt.length < fuel + 1 by simp at hfuel; omega)
    -- The reader looks for the closing brace first; a key starts with a quote.
    obtain ⟨q, qs, hq, hclose⟩ : ∃ q qs, kt = q :: qs ∧ q ≠ '\x7d' := by
      cases hk <;> exact ⟨_, _, rfl, by decide⟩
    simp only [List.append_assoc, List.cons_append] at hkey ⊢
    rw [hq, List.cons_append] at hkey ⊢
    rw [Literal.entries]
    dsimp only
    rw [if_neg hclose, hkey, Option.bind_some]
    dsimp only
    rw [skip_blanks ha (solid_cons rfl)]
    show (Literal.value (fuel + 1) (skip (b ++ (vt ++ (d ++ c :: rest))))).bind _ = _
    rw [skip_blanks hb (hv.solid _), hvalue, Option.bind_some]
    dsimp only
    rw [skip_blanks hd (solid_cons hc)]
    rfl

/-- A text that is read as the entries of a dictionary, whatever follows it. The closing brace is
its last character. -/
structure ReadsEntries (es : List (Literal × Literal)) (t : List Char) : Prop where
  solid (rest : List Char) : Solid (t ++ rest)
  entries (rest : List Char) {fuel : Nat} (hfuel : t.length < fuel) :
    entries fuel (t ++ rest) = some (es, rest)

namespace ReadsEntry

variable {e : Literal × Literal} {t : List Char}

theorem last (h : ReadsEntry e t) : ReadsEntries [e] (t ++ ['\x7d']) := by
  refine ⟨fun rest => ?_, fun rest fuel hfuel => ?_⟩
  · rw [List.append_assoc]
    exact h.solid _
  · obtain ⟨fuel, rfl⟩ := Nat.exists_eq_add_one_of_ne_zero (Nat.ne_of_gt (Nat.zero_lt_of_lt hfuel))
    simp only [List.append_assoc, List.singleton_append]
    rw [h.entries rfl _ (by simp at hfuel; omega)]
    rfl

theorem lastComma (h : ReadsEntry e t) {a : List Char} (ha : Blanks a) :
    ReadsEntries [e] (t ++ ',' :: a ++ ['\x7d']) := by
  refine ⟨fun rest => ?_, fun rest fuel hfuel => ?_⟩
  · simp only [List.append_assoc]
    exact h.solid _
  · obtain ⟨fuel, rfl⟩ : ∃ k, fuel = k + 2 := ⟨fuel - 2, by simp at hfuel; omega⟩
    simp only [List.append_assoc, List.cons_append, List.nil_append]
    rw [h.entries rfl _ (by simp at hfuel; omega)]
    rw [afterEntry]
    rw [skip_blanks ha (solid_cons rfl)]
    simp [Literal.entries]

theorem cons (h : ReadsEntry e t) {a u : List Char} {es : List (Literal × Literal)} (ha : Blanks a)
    (hes : ReadsEntries es u) : ReadsEntries (e :: es) (t ++ ',' :: a ++ u) := by
  refine ⟨fun rest => ?_, fun rest fuel hfuel => ?_⟩
  · simp only [List.append_assoc]
    exact h.solid _
  · obtain ⟨fuel, rfl⟩ := Nat.exists_eq_add_one_of_ne_zero (Nat.ne_of_gt (Nat.zero_lt_of_lt hfuel))
    simp only [List.append_assoc, List.cons_append]
    rw [h.entries rfl _ (by simp at hfuel; omega)]
    rw [afterEntry]
    rw [skip_blanks ha (hes.solid rest), hes.entries rest (by simp at hfuel; omega)]
    rfl

end ReadsEntry

/-- The entries of a dictionary as a value has them. -/
def ofEntries (es : List (List Char × Literal)) : List (Literal × Literal) :=
  es.map fun e => (string e.1, e.2)

theorem readsEntry {key t : List Char} {x : Literal} (h : Entry key x t) :
    ReadsEntry (string key, x) t := by
  cases h with
  | mk hk ha hb hv hc => exact (reads_of_spelled hv).entry hk ha hb hc

/-- **The entries of a dictionary are read back in the order they stand.** -/
theorem readsEntries {es : List (List Char × Literal)} {t : List Char} (h : Entries es t) :
    ReadsEntries (ofEntries es) t := by
  induction h with
  | last h => exact (readsEntry h).last
  | lastComma h ha => exact (readsEntry h).lastComma ha
  | cons h ha _ ih => exact (readsEntry h).cons ha ih

/-- Entries that are read back make a dictionary that is, alone in a text but for blanks. This is
where the count is set: one more than the text is long. -/
theorem ReadsEntries.parse? {es : List (Literal × Literal)} {a b t c : List Char}
    (h : ReadsEntries es t) (ha : Blanks a) (hb : Blanks b) (hc : Blanks c) :
    parse? (a ++ '\x7b' :: b ++ t ++ c) = some (.dict es) := by
  have hentries := h.entries c
    (show t.length < (a ++ '\x7b' :: b ++ t ++ c).length by simp; omega)
  have hvalue : Literal.value ((a ++ '\x7b' :: b ++ t ++ c).length + 1)
      ('\x7b' :: (b ++ (t ++ c))) = some (.dict es, c) := by
    rw [Literal.value, skip_blanks hb (h.solid c), hentries]
  have hskip : skip (a ++ '\x7b' :: b ++ t ++ c) = '\x7b' :: (b ++ (t ++ c)) := by
    simp only [List.append_assoc, List.cons_append]
    exact skip_blanks ha (solid_cons rfl)
  unfold Literal.parse?
  rw [hskip, hvalue]
  simp [skip_all hc]

end Literal

/-- **A description is read back as the dictionary of its entries.** -/
theorem Described.parse? {descriptor : List Char} {columnMajor : Bool} {shape : List Nat}
    {text : List Char} (h : Described descriptor columnMajor shape text) :
    ∃ es, es.Perm (facts descriptor columnMajor shape) ∧
      Literal.parse? text = some (.dict (Literal.ofEntries es)) := by
  cases h with
  | mk ha hb perm h hc => exact ⟨_, perm, (Literal.readsEntries h).parse? ha hb hc⟩

/-! ## From the dictionary to the header -/

/-- A shape is taken over from its value as long as each length fits into a machine word. What
describes an array has no other way to be refused once it has been parsed. -/
theorem shape?_shapeLiteral {shape : List Nat} (h : ∀ n ∈ shape, n ≤ maxLength) :
    shape? (shapeLiteral shape) = some shape := by
  unfold shapeLiteral shape?
  dsimp only
  rw [List.mapM_map]
  induction shape with
  | nil => rfl
  | cons n shape ih =>
    have hn : n ≤ maxLength := h n List.mem_cons_self
    rw [List.mapM_cons, ih fun m hm => h m (List.mem_cons_of_mem n hm)]
    show (if n ≤ maxLength then some n else none) >>= _ = _
    rw [if_pos hn]
    rfl

namespace Header.Draft

theorem add_descr (d : Draft) (x : Literal) :
    d.add (.string "descr".toList) x = .ok { d with descriptor := some x } := by
  unfold add
  dsimp only
  rw [if_pos rfl]

theorem add_order (d : Draft) (b : Bool) :
    d.add (.string "fortran_order".toList) (.boolean b) = .ok { d with columnMajor := some b } := by
  unfold add
  dsimp only
  rw [if_neg (by decide), if_pos rfl]

theorem add_shape (d : Draft) {shape : List Nat} (h : ∀ n ∈ shape, n ≤ maxLength) :
    d.add (.string "shape".toList) (shapeLiteral shape) = .ok { d with shape := some shape } := by
  unfold add
  dsimp only
  rw [if_neg (by decide), if_neg (by decide), if_pos rfl, shape?_shapeLiteral h]

end Header.Draft

section

variable {descriptor : List Char} {columnMajor : Bool} {shape : List Nat} {text : List Char}

/-- Each of the three facts goes into a place of its own, so their order does not matter. -/
theorem Header.ofLiteral_facts {es : List (List Char × Literal)}
    (perm : es.Perm (facts descriptor columnMajor shape)) (h : ∀ n ∈ shape, n ≤ maxLength) :
    Header.ofLiteral (.dict (Literal.ofEntries es)) =
      .ok ⟨.string descriptor, columnMajor, shape⟩ := by
  -- A permutation of three entries is one of six lists, and there is no simpler case analysis: the
  -- reader goes through the entries in the order they stand.
  have hshape := fun d => Header.Draft.add_shape d h
  have hmem := List.mem_permutations'.mpr perm
  simp only [facts, List.permutations', List.permutations'Aux, List.flatMap_cons, List.flatMap_nil,
    List.map_cons, List.map_nil, List.append_nil, List.cons_append, List.nil_append,
    List.mem_cons, List.not_mem_nil, or_false] at hmem
  -- The six orders, each of which ends in the same draft.
  rcases hmem with rfl | rfl | rfl | rfl | rfl | rfl
  all_goals
    simp only [Header.ofLiteral, Literal.ofEntries, List.map_cons, List.map_nil, List.foldlM_cons,
      List.foldlM_nil, Header.Draft.add_descr, Header.Draft.add_order, hshape]
    rfl

/-- **A description is understood as what it describes, whichever way it is written.** -/
theorem Described.ofLiteral (h : Described descriptor columnMajor shape text)
    (hshape : ∀ n ∈ shape, n ≤ maxLength) :
    ∃ x, Literal.parse? text = some x ∧
      Header.ofLiteral x = .ok ⟨.string descriptor, columnMajor, shape⟩ := by
  obtain ⟨es, perm, hparse⟩ := h.parse?
  exact ⟨_, hparse, Header.ofLiteral_facts perm hshape⟩

end

/-! ## Characters

Every character of a description is ASCII, so all versions of the format can hold it. -/

/-- A text of ASCII characters only, which is the same in all the encodings that the versions of the
format use. -/
def Ascii (cs : List Char) : Prop := ∀ c ∈ cs, c.toNat < 0x80

@[simp] theorem ascii_nil : Ascii [] := by
  rintro c ⟨⟩

@[simp] theorem ascii_cons {c : Char} {cs : List Char} :
    Ascii (c :: cs) ↔ c.toNat < 0x80 ∧ Ascii cs :=
  List.forall_mem_cons

@[simp] theorem ascii_append {cs ds : List Char} : Ascii (cs ++ ds) ↔ Ascii cs ∧ Ascii ds :=
  List.forall_mem_append

theorem Blanks.ascii {cs : List Char} (h : Blanks cs) : Ascii cs := by
  intro c hc
  have hblank := h c hc
  unfold Literal.isBlank at hblank
  simp only [Bool.or_eq_true, beq_iff_eq] at hblank
  rcases hblank with (rfl | rfl) | rfl <;> decide

theorem ascii_toDigits (n : Nat) : Ascii (Nat.toDigits 10 n) := by
  intro c hc
  have hdigit := Nat.isDigit_of_mem_toDigits (by decide) (by decide) hc
  simp only [Char.isDigit, Bool.and_eq_true, decide_eq_true_eq] at hdigit
  exact Nat.lt_of_le_of_lt hdigit.2 (by decide)

theorem Quoted.ascii {cs t : List Char} (h : Quoted cs t) : Ascii t := by
  cases h with
  | single plain | double plain =>
    have hcs : Ascii cs := fun c hc => (plain c hc).ascii
    simp [hcs]

theorem Lengths.ascii {ns : List Nat} {t : List Char} (h : Lengths ns t) : Ascii t := by
  induction h with
  | last n ha => simp [ascii_toDigits, ha.ascii]
  | lastComma n ha hb => simp [ascii_toDigits, ha.ascii, hb.ascii]
  | cons n ha hb _ ih => simp [ascii_toDigits, ha.ascii, hb.ascii, ih]

theorem Spelled.ascii {x : Literal} {t : List Char} (h : Spelled x t) : Ascii t := by
  cases h with
  | string h => exact h.ascii
  | true | false => simp
  | shape ha _ h => simp [ha.ascii, h.ascii]

theorem Entries.ascii {es : List (List Char × Literal)} {t : List Char} (h : Entries es t) :
    Ascii t := by
  have hentry : ∀ {key t : List Char} {x : Literal}, Entry key x t → Ascii t := by
    rintro key t x ⟨hk, ha, hb, hv, hc⟩
    simp [hk.ascii, ha.ascii, hb.ascii, hv.ascii, hc.ascii]
  induction h with
  | last h => simp [hentry h]
  | lastComma h ha => simp [hentry h, ha.ascii]
  | cons h ha _ ih => simp [hentry h, ha.ascii, ih]

theorem Described.ascii {descriptor : List Char} {columnMajor : Bool} {shape : List Nat}
    {text : List Char} (h : Described descriptor columnMajor shape text) : Ascii text := by
  cases h with
  | mk ha hb _ h hc => simp [ha.ascii, hb.ascii, h.ascii, hc.ascii]

/-! ## The usual way

Most programs write descriptions in one way: single quotes, one blank after every colon and comma,
the keys in alphabetical order and a comma after the last entry. -/

/-- The lengths of a shape up to the closing parenthesis. Empty blanks are written out, here and
below, for the rules of the grammar to apply as they stand. -/
def lengthsText : List Nat → List Char
  | [] => []
  | [n] => Nat.toDigits 10 n ++ [] ++ [')']
  | n :: m :: ns => Nat.toDigits 10 n ++ [] ++ ',' :: [' '] ++ lengthsText (m :: ns)

def booleanText : Bool → List Char
  | true => ['T', 'r', 'u', 'e']
  | false => ['F', 'a', 'l', 's', 'e']

def entryText (key value : List Char) : List Char :=
  ('\'' :: key ++ ['\'']) ++ [] ++ ':' :: [' '] ++ value ++ []

def usualText (descriptor : List Char) (columnMajor : Bool) (shape : List Nat) : List Char :=
  [] ++ '\x7b' :: [] ++
    (entryText "descr".toList ('\'' :: descriptor ++ ['\'']) ++ ',' :: [' '] ++
      (entryText "fortran_order".toList (booleanText columnMajor) ++ ',' :: [' '] ++
        (entryText "shape".toList ('(' :: [] ++ lengthsText shape) ++ ',' :: [' '] ++ ['\x7d']))) ++
    []

theorem blanks_nil : Blanks [] := by
  rintro c ⟨⟩

theorem blanks_space : Blanks [' '] := by
  intro c hc
  rw [List.mem_singleton.mp hc]
  rfl

instance (c : Char) : Decidable (Plain c) :=
  decidable_of_iff (c ≠ '\'' ∧ c ≠ '"' ∧ c ≠ '\\' ∧ c ≠ '\n' ∧ c ≠ '\r' ∧ c.toNat < 0x80)
    ⟨fun ⟨h₁, h₂, h₃, h₄, h₅, h₆⟩ => ⟨h₁, h₂, h₃, h₄, h₅, h₆⟩,
      fun ⟨h₁, h₂, h₃, h₄, h₅, h₆⟩ => ⟨h₁, h₂, h₃, h₄, h₅, h₆⟩⟩

instance (cs : List Char) : Decidable (PlainText cs) :=
  List.decidableBAll Plain cs

theorem lengths_lengthsText : ∀ {shape : List Nat}, shape ≠ [] → Lengths shape (lengthsText shape)
  | [], h => absurd rfl h
  | [n], _ => .last n blanks_nil
  | n :: _ :: _, _ => .cons n blanks_nil blanks_space (lengths_lengthsText (List.cons_ne_nil _ _))

theorem entry_entryText {key value : List Char} {x : Literal} (hkey : PlainText key)
    (hvalue : Spelled x value) : Entry key x (entryText key value) :=
  .mk (.single hkey) blanks_nil blanks_space hvalue blanks_nil

/-- The usual text is one of the texts that describe an array. Any other is as good; this is the one
to show a file with. -/
theorem described_usualText {descriptor : List Char} {columnMajor : Bool} {shape : List Nat}
    (hdescriptor : PlainText descriptor) (hshape : 2 ≤ shape.length) :
    Described descriptor columnMajor shape (usualText descriptor columnMajor shape) := by
  have hne : shape ≠ [] := by
    rintro rfl
    cases hshape
  have hboolean : Spelled (.boolean columnMajor) (booleanText columnMajor) := by
    cases columnMajor with
    | true => exact .true
    | false => exact .false
  refine .mk blanks_nil blanks_nil (List.Perm.refl _) ?_ blanks_nil
  refine .cons (entry_entryText (by decide) (.string (.single hdescriptor))) blanks_space ?_
  refine .cons (entry_entryText (by decide) hboolean) blanks_space ?_
  exact .lastComma (entry_entryText (by decide)
    (.shape blanks_nil hshape (lengths_lengthsText hne))) blanks_space

end Npy
end Beamline
