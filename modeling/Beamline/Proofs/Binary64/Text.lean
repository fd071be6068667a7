import Beamline.Proofs.Binary64.Literal
import Beamline.Proofs.Binary64.Shortest
import Beamline.Proofs.Text.Digit

/-!
# Texts — what is printed is a literal, and of the same value

A value is printed as a sign and a word, or as a sign and a decimal in positional notation. The text
of a decimal is a literal of that decimal (`unsigned?_positional`), or of one with the same value
where the exponent is written out in zeros; and a decimal that comes from a magnitude is read as
that magnitude. So every value, of whatever kind, comes back from its text (`parse?_text`).
-/

set_option autoImplicit false

namespace Beamline

/-! ## Digits -/

theorem toList_pushn (s : String) (c : Char) (n : Nat) :
    (s.pushn c n).toList = s.toList ++ List.replicate n c := by
  rw [String.pushn_eq_repeat_push]
  induction n with
  | zero => simp [Nat.repeat]
  | succ n ih => simp [Nat.repeat, ih, List.replicate_succ']

namespace Text

theorem numberOf_zeros (n : Nat) : numberOf 10 (List.replicate n '0') = 0 := by
  induction n with
  | zero => rfl
  | succ n ih =>
    rw [List.replicate_succ', numberOf_append, ih]
    rfl

/-- A number and zeros after its digits: a multiple by a power of ten, which is how a positive
exponent is written out. -/
theorem numberOf_shifted (n k : Nat) :
    numberOf 10 (Nat.toDigits 10 n ++ List.replicate k '0') = n * 10 ^ k := by
  rw [numberOf_append, numberOf_toDigits, numberOf_zeros, List.length_replicate, Nat.mul_comm]
  rfl

/-- Digits filled up to a number of places. The digits behind a point have to be filled up so, for
their place to be told by how many they are. -/
def padded (places n : Nat) : List Char :=
  List.replicate (places - (Nat.toDigits 10 n).length) '0' ++ Nat.toDigits 10 n

theorem length_padded {places n : Nat} (hplaces : 0 < places) (h : n < 10 ^ places) :
    (padded places n).length = places := by
  have hle := Nat.toDigits_length 10 n places hplaces h
  unfold padded
  rw [List.length_append, List.length_replicate]
  omega

theorem numberOf_padded (places n : Nat) : numberOf 10 (padded places n) = n := by
  unfold padded
  rw [numberOf_append, numberOf_zeros, numberOf_toDigits]
  simp

/-- A number in two parts, the second so many places long, as before and after a point. -/
theorem numberOf_divided {places : Nat} (hplaces : 0 < places) (n : Nat) :
    numberOf 10 (Nat.toDigits 10 (n / 10 ^ places) ++ padded places (n % 10 ^ places)) = n := by
  have hlt : n % 10 ^ places < 10 ^ places := Nat.mod_lt _ (Nat.pow_pos (by decide))
  rw [numberOf_append, numberOf_toDigits, numberOf_padded, length_padded hplaces hlt]
  exact Nat.div_add_mod n (10 ^ places)

theorem isDigit_of_mem_zeros {n : Nat} {c : Char} (h : c ∈ List.replicate n '0') :
    isDigit 10 c = true := by
  rw [List.eq_of_mem_replicate h]
  rfl

theorem isDigit_of_mem_padded {places n : Nat} {c : Char} (h : c ∈ padded places n) :
    isDigit 10 c = true := by
  unfold padded at h
  rcases List.mem_append.mp h with hzero | hdigit
  · exact isDigit_of_mem_zeros hzero
  · exact isDigit_of_mem_toDigits hdigit

end Text

/-! ## Unsigned decimals -/

namespace Binary64

open Text

/-- Digits alone are a decimal without an exponent. -/
theorem unsigned?_whole (sign : Sign) {ds : List Char} (hne : ds ≠ [])
    (hds : ∀ c ∈ ds, isDigit 10 c = true) :
    unsigned? sign ds = some (ofDecimal sign (numberOf 10 ds) 0) := by
  have htake : ds.takeWhile (isDigit 10) = ds := List.takeWhile_eq_self_iff.mpr hds
  have hdrop : ds.dropWhile (isDigit 10) = [] := List.dropWhile_eq_nil_iff.mpr hds
  unfold unsigned?
  rw [htake, hdrop]
  simp [hne, exponent?]

/-- Digits around a point are those of one number, divided by ten for each place behind the
point. -/
theorem unsigned?_fraction (sign : Sign) {whole fraction : List Char} (hne : whole ≠ [])
    (hwhole : ∀ c ∈ whole, isDigit 10 c = true) (hfraction : ∀ c ∈ fraction, isDigit 10 c = true) :
    unsigned? sign (whole ++ '.' :: fraction) =
      some (ofDecimal sign (numberOf 10 (whole ++ fraction)) (-fraction.length)) := by
  have hpoint : isDigit 10 '.' = false := rfl
  have htake : (whole ++ '.' :: fraction).takeWhile (isDigit 10) = whole := by
    rw [List.takeWhile_append_of_pos hwhole, List.takeWhile_cons_of_neg (by simp [hpoint]),
      List.append_nil]
  have hdrop : (whole ++ '.' :: fraction).dropWhile (isDigit 10) = '.' :: fraction := by
    rw [List.dropWhile_append_of_pos hwhole, List.dropWhile_cons_of_neg (by simp [hpoint])]
  have htake' : fraction.takeWhile (isDigit 10) = fraction :=
    List.takeWhile_eq_self_iff.mpr hfraction
  have hdrop' : fraction.dropWhile (isDigit 10) = [] := List.dropWhile_eq_nil_iff.mpr hfraction
  unfold unsigned?
  dsimp only
  rw [htake, hdrop]
  simp only
  rw [htake', hdrop']
  simp [hne, exponent?]

/-- **The text of a decimal is read as the magnitude that attracts it.** Zeros are written out for
an exponent of one sign, and a point is set for the other, so there are two shapes of text. Neither
has an exponent in it. -/
theorem unsigned?_positional {m : Magnitude} (hm : 0 < m.units) {d : Decimal}
    (h : m.Attracts (d.toRat * unitsPerOne)) (hexponent : -oneBits ≤ d.exponent) (sign : Sign) :
    unsigned? sign d.positional.toList = some (finite sign m) := by
  have hdigits := digits_ne_zero_of_attracts hm h
  obtain ⟨digits, exponent⟩ := d
  cases exponent with
  | ofNat e =>
    -- The exponent is written out, so what is read is another decimal of the same value.
    have hsame : (⟨digits * 10 ^ e, 0⟩ : Decimal).toRat =
        (⟨digits, Int.ofNat e⟩ : Decimal).toRat := by
      simp [Decimal.toRat]
    have htext : (Decimal.positional ⟨digits, Int.ofNat e⟩).toList =
        Nat.toDigits 10 digits ++ List.replicate e '0' := by
      unfold Decimal.positional
      dsimp only at hdigits ⊢
      rw [if_neg hdigits]
      simp [Decimal.digitText, toList_pushn]
    rw [← hsame] at h
    rw [htext, unsigned?_whole sign (by simp [Nat.toDigits_ne_nil]), numberOf_shifted]
    · exact congrArg some
        (ofDecimal_of_attracts hm h (Int.neg_nonpos_of_nonneg (Int.natCast_nonneg _)) sign)
    · intro c hc
      rcases List.mem_append.mp hc with hdigit | hzero
      · exact isDigit_of_mem_toDigits hdigit
      · exact isDigit_of_mem_zeros hzero
  | negSucc e =>
    have hlt : digits % 10 ^ (e + 1) < 10 ^ (e + 1) := Nat.mod_lt _ (Nat.pow_pos (by decide))
    have htext : (Decimal.positional ⟨digits, Int.negSucc e⟩).toList =
        Nat.toDigits 10 (digits / 10 ^ (e + 1)) ++
          '.' :: padded (e + 1) (digits % 10 ^ (e + 1)) := by
      unfold Decimal.positional
      simp [Decimal.digitText, toList_pushn, padded]
    rw [htext, unsigned?_fraction sign Nat.toDigits_ne_nil (fun c => isDigit_of_mem_toDigits)
      (fun c => isDigit_of_mem_padded), length_padded (Nat.succ_pos e) hlt,
      numberOf_divided (Nat.succ_pos e)]
    exact congrArg some (ofDecimal_of_attracts hm h hexponent sign)

/-! ## Signs and words -/

/-- A decimal's text begins with a digit, a zero if need be. So it has no sign of its own, and is
none of the words. -/
theorem exists_positional (d : Decimal) :
    ∃ c cs, d.positional.toList = c :: cs ∧ isDigit 10 c = true := by
  have hhead : ∀ (n : Nat) (rest : List Char), ∃ c cs, Nat.toDigits 10 n ++ rest = c :: cs ∧
      isDigit 10 c = true := by
    intro n rest
    obtain ⟨c, cs, hdigits⟩ := List.exists_cons_of_ne_nil (Nat.toDigits_ne_nil (b := 10) (n := n))
    refine ⟨c, cs ++ rest, by rw [hdigits, List.cons_append], ?_⟩
    exact isDigit_of_mem_toDigits (n := n) (by rw [hdigits]; exact List.mem_cons_self)
  unfold Decimal.positional
  split
  · split
    · exact ⟨'0', [], rfl, rfl⟩
    · rw [String.toList_append, Decimal.digitText, String.toList_ofList]
      exact hhead _ _
  · simp only [String.toList_append, Decimal.digitText, String.toList_ofList, List.append_assoc]
    exact hhead _ _

/-- No word starts with a digit. The words for what is not finite are tried first, in lower case. -/
theorem toLower_ne_of_isDigit {c : Char} (h : isDigit 10 c = true) :
    c.toLower ≠ 'n' ∧ c.toLower ≠ 'i' := by
  have hdigit := charIsDigit_of_isDigit h
  have hsame : c.toLower = c := by
    refine dif_neg fun hupper => ?_
    have hlow : 'A'.toNat ≤ c.toNat := hupper.1
    have hhigh : c.toNat ≤ '9'.toNat := by
      simp only [Char.isDigit, Bool.and_eq_true, decide_eq_true_eq] at hdigit
      exact hdigit.2
    exact absurd (hlow.trans hhigh) (by decide)
  rw [hsame]
  refine ⟨?_, ?_⟩ <;> (rintro rfl; cases hdigit)

/-- A sign and something that starts with a digit is a number with that sign. The plus sign is not
written, so what begins the number must not be taken for a sign either. -/
theorem parse?_signed (sign : Sign) {c : Char} (h : isDigit 10 c = true) (cs : List Char) :
    parse? ((signText sign).toList ++ c :: cs) = unsigned? sign (c :: cs) := by
  have hsign : takeSign ((signText sign).toList ++ c :: cs) = (sign, c :: cs) := by
    cases sign with
    | plus =>
      show takeSign (c :: cs) = _
      unfold takeSign
      split
      next heq =>
        cases heq
        cases h
      next heq =>
        cases heq
        cases h
      next => rfl
    | minus => rfl
  have hword : ∀ first word, c.toLower ≠ first →
      String.ofList ((c :: cs).map Char.toLower) ≠ String.ofList (first :: word) := by
    intro first word hne heq
    exact hne (List.cons.inj (String.ofList_injective heq)).1
  obtain ⟨hn, hi⟩ := toLower_ne_of_isDigit h
  unfold parse?
  rw [hsign]
  dsimp only
  rw [if_neg (hword 'n' ['a', 'n'] hn), if_neg]
  rintro (hinf | hinf)
  · exact hword 'i' ['n', 'f'] hi hinf
  · exact hword 'i' ['n', 'f', 'i', 'n', 'i', 't', 'y'] hi hinf

theorem parse?_infinite (sign : Sign) :
    parse? ((signText sign).toList ++ "inf".toList) = some (infinite sign) := by
  cases sign with
  | plus | minus => rfl

/-- **Every value comes back from its text.** Zeros are a case by themselves: they attract no
decimal but their own. -/
theorem parse?_text (x : Binary64) : parse? x.text.toList = some x := by
  cases x with
  | nan => rfl
  | infinite sign =>
    show parse? (signText sign ++ "inf").toList = _
    rw [String.toList_append]
    exact parse?_infinite sign
  | finite sign m =>
    show parse? (signText sign ++ m.shortest.positional).toList = _
    obtain ⟨c, cs, hcs, hdigit⟩ := exists_positional m.shortest
    rw [String.toList_append, hcs, parse?_signed sign hdigit, ← hcs]
    by_cases hm : m.units = 0
    · have hzero : m = Magnitude.zero := Magnitude.ext_units hm
      subst hzero
      rfl
    · obtain ⟨hattracts, hexponent⟩ := Magnitude.attracts_shortest (Nat.pos_of_ne_zero hm)
      exact unsigned?_positional (Nat.pos_of_ne_zero hm) hattracts hexponent sign

end Binary64
end Beamline
