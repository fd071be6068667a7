import Mathlib.Tactic
import Beamline.Proofs.Text.Digit
import Beamline.Proofs.Toml.Token
import Beamline.Proofs.Toml.Value

/-!
# Writing values — which values a line can end with

Any string, any truth value and any whole number of 64 bits can be written before the end of a line
(`writable_string`, `writable_boolean`, `writable_integer`): the string by the numbers of its
characters, the number by its digits.
-/

set_option autoImplicit false

namespace Beamline
namespace Toml

/-- A text that is some tokens wherever a line ends after it. -/
def WritesLine (ts : List Token) (text : List Char) : Prop :=
  ∀ rest back, Written rest ('\n' :: back) → Written (ts ++ rest) (text ++ '\n' :: back)

/-- Values that can be written before the end of a line. -/
def Value.Writable (v : Value) : Prop :=
  ∃ ts text, Spells (.value v) ts ∧ WritesLine ts text ∧ '\r' ∉ text

section

variable {t : Token} {text cs : List Char} {c : Char}

/-- A line end ends every token. -/
theorem Token.ends_newline (t : Token) (back : List Char) : t.Ends ('\n' :: back) := by
  cases t with
  | text => exact ⟨by decide, by decide⟩
  | comment => rfl
  | blank => exact (by decide : isBlank '\n' = false)
  | word => exact (by decide : isKeyChar '\n' = false)
  | newline => trivial
  | mark => trivial

theorem newline_ends (back : List Char) : Token.newline.Ends back := by cases back <;> trivial

theorem mark_ends (c : Char) (back : List Char) : (Token.mark c).Ends back := by
  cases back <;> trivial

theorem Lexeme.writesLine (h : Lexeme t text) : WritesLine [t] text :=
  fun _ back hback => .cons h (t.ends_newline back) hback

theorem writable_string (s : String) : (Value.string s).Writable := by
  obtain ⟨text, hcontent, hreturn⟩ := exists_content false s.toList
  have hspells := Spells.text s.toList false
  rw [String.ofList_toList] at hspells
  refine ⟨_, _, hspells, (Lexeme.line hcontent).writesLine, ?_⟩
  simp [Quote.char, hreturn]

theorem writable_boolean (b : Bool) : (Value.boolean b).Writable := by
  cases b with
  | true =>
    have hword : Lexeme _ "true".toList := .word (by decide) (List.all_eq_true.mp (by decide))
    exact ⟨_, _, .yes, hword.writesLine, by decide⟩
  | false =>
    have hword : Lexeme _ "false".toList := .word (by decide) (List.all_eq_true.mp (by decide))
    exact ⟨_, _, .no, hword.writesLine, by decide⟩

/-! ## Whole numbers -/

theorem isKeyChar_of_isDigit (h : Text.isDigit 10 c = true) : isKeyChar c = true := by
  have hdigit := Text.charIsDigit_of_isDigit h
  simp [isKeyChar, Char.isAlphanum, hdigit]

theorem digits_self (hne : cs ≠ []) (h : ∀ c ∈ cs, Text.isDigit 10 c = true) : Digits 10 cs cs := by
  induction cs with
  | nil => exact absurd rfl hne
  | cons c cs ih =>
    obtain ⟨hc, hcs⟩ := List.forall_mem_cons.mp h
    cases cs with
    | nil => exact .last hc
    | cons d cs => exact .next hc (ih (by simp) hcs)

/-- The digits of a number begin with a zero only if the number is zero. -/
theorem head_toDigits_ne_zero {n : ℕ} (h : 0 < n) : (Nat.toDigits 10 n).head? ≠ some '0' := by
  induction n using Nat.strongRecOn with
  | ind n ih =>
    by_cases hn : n < 10
    · rw [Nat.toDigits_of_lt_base hn]
      interval_cases n <;> decide
    · have hless := ih (n / 10) (by omega) (by omega)
      rw [Nat.toDigits_of_base_le (by decide) (by omega), List.head?_append]
      cases hhead : (Nat.toDigits 10 (n / 10)).head? with
      | none =>
        rw [List.head?_eq_none_iff] at hhead
        exact absurd hhead Nat.toDigits_ne_nil
      | some d =>
        rw [hhead] at hless
        exact hless

theorem whole_toDigits (n : ℕ) : Whole (Nat.toDigits 10 n) := by
  by_cases h : 0 < n
  · exact Or.inr (head_toDigits_ne_zero h)
  · obtain rfl : n = 0 := by omega
    exact Or.inl rfl

/-- A whole number of 64 bits can be written. -/
theorem writable_integer {i : ℤ} (h : -2 ^ 63 ≤ i ∧ i < 2 ^ 63) : (Value.integer i).Writable := by
  obtain ⟨sign, n, hi⟩ : ∃ (sign : Sign) (n : ℕ), i = sign.apply n := by
    cases i with
    | ofNat n => exact ⟨.plus, n, rfl⟩
    | negSucc n => exact ⟨.minus, n + 1, rfl⟩
  have hdigits : Digits 10 (Nat.toDigits 10 n) (Nat.toDigits 10 n) :=
    digits_self Nat.toDigits_ne_nil fun c => Text.isDigit_of_mem_toDigits
  have hnumeral : Numeral sign (.integer i) (Nat.toDigits 10 n) [] :=
    .integer hdigits (whole_toDigits n) (by rw [Text.numberOf_toDigits, hi]) h
  have hkey : ∀ c ∈ Nat.toDigits 10 n, isKeyChar c = true := fun c hc =>
    isKeyChar_of_isDigit (Text.isDigit_of_mem_toDigits hc)
  have hsigned : ∀ c ∈ signed sign (Nat.toDigits 10 n), isKeyChar c = true := by
    cases sign with
    | plus => exact hkey
    | minus => exact List.forall_mem_cons.mpr ⟨by decide, hkey⟩
  have hne : signed sign (Nat.toDigits 10 n) ≠ [] := by
    cases sign with
    | plus => exact Nat.toDigits_ne_nil
    | minus => simp [signed]
  refine ⟨_, _, .number hnumeral, (Lexeme.word hne hsigned).writesLine, ?_⟩
  intro hmem
  exact absurd (hsigned _ hmem) (by decide)

end

end Toml
end Beamline
