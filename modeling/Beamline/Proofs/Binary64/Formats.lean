import Beamline.Proofs.Binary64.Exact

/-!
# Formats — words read as the standard writes them

`FloatFormat.exact` is the reading of an interchange word as it stands in the standard: a biased
exponent, a significand between one and two, a gap below the least normal value filled with
subnormal ones. The decoder counts in units of the smallest value instead and rounds at the end.
`exact_decode` says that the two agree on every word of a format that is no larger than binary64,
so decoding binary64 and widening binary32 lose nothing; the rounding never rounds.
-/

set_option autoImplicit false

namespace Beamline
namespace FloatFormat

/-- What is taken off the exponent field of a normal value, so that an exponent of zero is in the
middle of the field. -/
def bias (f : FloatFormat) : ℤ := 2 ^ (f.exponentBits - 1) - 1

/-- The value of a word, by sign, exponent and fraction. This is the text of the standard, kept
apart from the decoder in both units and rounding, so that agreeing with it says something. -/
def exact (f : FloatFormat) (word : Nat) : Exact :=
  let fraction := word % 2 ^ f.fractionBits
  let exponent := word / 2 ^ f.fractionBits % 2 ^ f.exponentBits
  let sign := if word.testBit (f.fractionBits + f.exponentBits) then Sign.minus else Sign.plus
  if exponent = 2 ^ f.exponentBits - 1 then
    if fraction = 0 then .infinite sign else .nan
  else if exponent = 0 then
    .finite sign (2 ^ (1 - f.bias) * (fraction / 2 ^ f.fractionBits))
  else
    .finite sign (2 ^ ((exponent : ℤ) - f.bias) * (1 + fraction / 2 ^ f.fractionBits))

/-- A format whose every value is a binary64 value. The bounds are on its fields: no more fraction
bits, no more exponent bits, and at least two of the latter, for the bias to be positive. -/
structure Embeds (f : FloatFormat) : Prop where
  fractionBits_le : f.fractionBits ≤ 52
  two_le_exponentBits : 2 ≤ f.exponentBits
  exponentBits_le : f.exponentBits ≤ 11

theorem embeds_binary64 : binary64.Embeds := ⟨by decide, by decide, by decide⟩

theorem embeds_binary32 : binary32.Embeds := ⟨by decide, by decide, by decide⟩

section

variable {f : FloatFormat} {exponent fraction : Nat}

/-- The bias as a natural number, and the unit of the format by it. The standard counts exponents
from the middle and the decoder from the smallest value; here the two counts meet. -/
theorem Embeds.exists_bias (h : f.Embeds) :
    ∃ b, f.bias = ((b + 1 : Nat) : ℤ) ∧ f.unitExponent = b + f.fractionBits ∧ b + 1 < 2 ^ 10 ∧
      2 ^ f.exponentBits = 2 * (b + 2) := by
  obtain ⟨-, h2, h11⟩ := h
  obtain ⟨w, hw⟩ : ∃ w, f.exponentBits = w + 2 := ⟨f.exponentBits - 2, by omega⟩
  have hpos : 1 ≤ 2 ^ w := Nat.one_le_two_pow
  have hle : 2 ^ w ≤ 2 ^ 9 := Nat.pow_le_pow_right Nat.two_pos (by omega)
  have hw1 : f.exponentBits - 1 = w + 1 := by omega
  -- With `w + 2` exponent bits the bias is `2 ^ (w + 1) - 1`, one more than this.
  refine ⟨2 ^ (w + 1) - 2, ?_, ?_, ?_, ?_⟩
  · unfold bias
    rw [hw1, Nat.cast_add, Nat.cast_sub (by rw [pow_succ]; omega)]
    push_cast
    ring
  · unfold unitExponent
    rw [hw1, Nat.pow_succ]
    omega
  · rw [Nat.pow_succ]
    omega
  · rw [hw, Nat.pow_succ, Nat.pow_succ]
    omega

/-- Normal or not, a magnitude is an integer of as many bits as the format has, shifted to the left.
The leading bit that is not stored is what the two cases differ in. -/
theorem exists_magnitude_eq (exponent : Nat) (hf : fraction < 2 ^ f.fractionBits) :
    ∃ k, f.magnitude exponent fraction = k * 2 ^ (exponent - 1) ∧ k < 2 ^ (f.fractionBits + 1) := by
  unfold magnitude
  rw [Nat.pow_succ]
  split
  · next h =>
    subst h
    exact ⟨fraction, (Nat.mul_one _).symm, by omega⟩
  · exact ⟨fraction + 2 ^ f.fractionBits, rfl, by omega⟩

/-- A word's magnitude is a magnitude of binary64: on its grid, and below the first one that
overflows. So the rounding at the end of the decoder finds nothing to round. -/
theorem Embeds.magnitude_units (h : f.Embeds) (hf : fraction < 2 ^ f.fractionBits)
    (he : exponent < 2 ^ f.exponentBits - 1) :
    spacing (f.magnitude exponent fraction * 2 ^ (oneBits - f.unitExponent)) ∣
        f.magnitude exponent fraction * 2 ^ (oneBits - f.unitExponent) ∧
      f.magnitude exponent fraction * 2 ^ (oneBits - f.unitExponent) < overflowUnits := by
  obtain ⟨b, -, hunit, hb, hw⟩ := h.exists_bias
  obtain ⟨k, hk, hlt⟩ := exists_magnitude_eq exponent hf
  have hp := h.fractionBits_le
  have hk53 : k ≤ 2 ^ 53 :=
    hlt.le.trans (Nat.pow_le_pow_right Nat.two_pos (by omega))
  rw [hk, Nat.mul_assoc, ← Nat.pow_add]
  refine ⟨spacing_dvd_mul_two_pow hk53, ?_⟩
  calc
    k * 2 ^ (exponent - 1 + (oneBits - f.unitExponent))
        < 2 ^ (f.fractionBits + 1) * 2 ^ (exponent - 1 + (oneBits - f.unitExponent)) :=
      Nat.mul_lt_mul_of_pos_right hlt (Nat.two_pow_pos _)
    _ = 2 ^ (f.fractionBits + 1 + (exponent - 1 + (oneBits - f.unitExponent))) :=
      (Nat.pow_add ..).symm
    _ ≤ overflowUnits := by
      refine Nat.pow_le_pow_right Nat.two_pos ?_
      rw [hunit]
      unfold oneBits overflowBits
      omega

/-- Units of the smallest value of a format, in units of the smallest value of binary64. -/
theorem Embeds.scaled_eq (h : f.Embeds) (m : Nat) :
    ((m * 2 ^ (oneBits - f.unitExponent) : Nat) : ℚ≥0) / unitsPerOne = m / 2 ^ f.unitExponent := by
  obtain ⟨b, -, hunit, hb, -⟩ := h.exists_bias
  have hp := h.fractionBits_le
  have hle : f.unitExponent ≤ oneBits := by
    rw [hunit]
    unfold oneBits
    omega
  have hsplit : unitsPerOne = 2 ^ (oneBits - f.unitExponent) * 2 ^ f.unitExponent := by
    unfold unitsPerOne
    rw [← Nat.pow_add, Nat.sub_add_cancel hle]
  rw [hsplit]
  push_cast
  rw [mul_comm (m : ℚ≥0), mul_div_mul_left _ _ (by positivity)]

theorem Embeds.subnormal_eq (h : f.Embeds) :
    (f.magnitude 0 fraction : ℚ≥0) / 2 ^ f.unitExponent =
      2 ^ (1 - f.bias) * (fraction / 2 ^ f.fractionBits) := by
  obtain ⟨b, hbias, hunit, -, -⟩ := h.exists_bias
  have hz : (1 : ℤ) - f.bias = -(b : ℤ) := by
    rw [hbias]
    push_cast
    ring
  rw [hz, hunit, zpow_neg, zpow_natCast, pow_add]
  unfold magnitude
  rw [if_pos rfl]
  field_simp

theorem Embeds.normal_eq (h : f.Embeds) (he : exponent ≠ 0) :
    (f.magnitude exponent fraction : ℚ≥0) / 2 ^ f.unitExponent =
      2 ^ ((exponent : ℤ) - f.bias) * (1 + fraction / 2 ^ f.fractionBits) := by
  obtain ⟨b, hbias, hunit, -, -⟩ := h.exists_bias
  obtain ⟨e, rfl⟩ := Nat.exists_eq_succ_of_ne_zero he
  have hz : ((e.succ : Nat) : ℤ) - f.bias = (e : ℤ) - (b : ℤ) := by
    rw [hbias]
    push_cast
    ring
  rw [hz, hunit, zpow_sub₀ (by norm_num), zpow_natCast, zpow_natCast, pow_add]
  unfold magnitude
  rw [if_neg he, Nat.succ_sub_one]
  push_cast
  field_simp
  ring

end

/-- **The decoder reads a word as the standard does.** -/
theorem exact_decode {f : FloatFormat} (h : f.Embeds) (word : Nat) :
    (f.decode word).exact = f.exact word := by
  have hfrac : word % 2 ^ f.fractionBits < 2 ^ f.fractionBits :=
    Nat.mod_lt _ (Nat.two_pow_pos _)
  have hexp : word / 2 ^ f.fractionBits % 2 ^ f.exponentBits < 2 ^ f.exponentBits :=
    Nat.mod_lt _ (Nat.two_pow_pos _)
  unfold decode exact specialExponent
  simp only [Nat.testBit_eq_decide_div_mod_eq, decide_eq_true_eq]
  generalize word % 2 ^ f.fractionBits = fraction at *
  generalize word / 2 ^ f.fractionBits % 2 ^ f.exponentBits = exponent at *
  generalize (if word / 2 ^ (f.fractionBits + f.exponentBits) % 2 = 1 then Sign.minus
    else Sign.plus) = sign
  by_cases hs : exponent = 2 ^ f.exponentBits - 1
  · rw [if_pos hs, if_pos hs]
    split <;> rfl
  · have hnormal : exponent < 2 ^ f.exponentBits - 1 := by omega
    obtain ⟨hspaced, hbound⟩ := h.magnitude_units hfrac hnormal
    rw [if_neg hs, if_neg hs, Binary64.round_units sign ⟨_, hspaced, hbound⟩]
    unfold Binary64.exact Magnitude.toRat
    dsimp only
    rw [h.scaled_eq]
    by_cases h0 : exponent = 0
    · subst h0
      rw [if_pos rfl, h.subnormal_eq]
    · rw [if_neg h0, h.normal_eq h0]

end FloatFormat
end Beamline
