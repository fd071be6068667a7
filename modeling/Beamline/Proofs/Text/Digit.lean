import Mathlib.Tactic
import Beamline.Text.Digit

/-!
# Digits — a number and the digits it is written with

Reading the decimal digits of a number gives the number back (`numberOf_toDigits`), and every one of
them is a character that the grammars here take for a digit (`isDigit_of_mem_toDigits`). That is all
that readers of written numbers need to know about writing them.
-/

set_option autoImplicit false

namespace Beamline
namespace Text

theorem hexDigit?_of_isDigit {c : Char} (h : c.isDigit = true) :
    hexDigit? c = some (c.toNat - '0'.toNat) := by
  simp only [Char.isDigit, Bool.and_eq_true, decide_eq_true_eq] at h
  exact if_pos h

theorem isDigit_of_charIsDigit {c : Char} (h : c.isDigit = true) : isDigit 10 c = true := by
  have hle : c.toNat ≤ '9'.toNat := by
    simp only [Char.isDigit, Bool.and_eq_true, decide_eq_true_eq] at h
    exact h.2
  unfold isDigit digit?
  rw [hexDigit?_of_isDigit h, Option.filter_some, if_pos]
  · rfl
  · have : '9'.toNat = 57 := rfl
    have : '0'.toNat = 48 := rfl
    exact decide_eq_true (by omega)

theorem charIsDigit_of_isDigit {c : Char} (h : isDigit 10 c = true) : c.isDigit = true := by
  unfold isDigit digit? hexDigit? at h
  split at h
  · next hc =>
    rw [Char.isDigit, Bool.and_eq_true, decide_eq_true_eq, decide_eq_true_eq]
    exact hc
  · -- Letters are worth ten and more.
    split at h
    · simp at h
    · split at h
      · simp at h
      · cases h

theorem digit?_digitChar {d : Nat} (h : d < 10) : digit? 10 d.digitChar = some d := by
  interval_cases d <;> rfl

theorem numberOf_toDigits (n : Nat) : numberOf 10 (Nat.toDigits 10 n) = n := by
  induction n using Nat.strongRecOn with
  | ind n ih =>
    by_cases h : n < 10
    · rw [Nat.toDigits_of_lt_base h]
      show 10 * 0 + (digit? 10 n.digitChar).getD 0 = n
      rw [digit?_digitChar h]
      simp
    · rw [Nat.toDigits_of_base_le (by decide) (by omega), numberOf_append, ih (n / 10) (by omega)]
      show 10 ^ 1 * (n / 10) + (10 * 0 + (digit? 10 (n % 10).digitChar).getD 0) = n
      rw [digit?_digitChar (Nat.mod_lt n (by decide))]
      simp only [Option.getD_some]
      omega

theorem isDigit_of_mem_toDigits {n : Nat} {c : Char} (h : c ∈ Nat.toDigits 10 n) :
    isDigit 10 c = true :=
  isDigit_of_charIsDigit (Nat.isDigit_of_mem_toDigits (by decide) (by decide) h)

end Text
end Beamline
