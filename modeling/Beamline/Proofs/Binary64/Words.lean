import Beamline.Binary64.Bits
import Beamline.Proofs.Binary64.Rounding

/-!
# Words — a value is read back from its bits

The writer has one rule for all magnitudes, the reader has a case for subnormal ones. They meet in
the significand: a magnitude is at most 53 bits and a shift (`exists_significand`), and the field is
the shift in the exponent's place plus the significand. Where the significand has all its bits, the
highest one adds one to the exponent, and otherwise there is no shift and the exponent is zero, so
the reader's two cases give the same units.
-/

set_option autoImplicit false

namespace Beamline

namespace Magnitude

theorem exists_significand (m : Magnitude) :
    ∃ k e, m.units = k * 2 ^ e ∧ m.field = e * 2 ^ 52 + k ∧ k < 2 ^ 53 ∧ e < 2046 ∧
      (e = 0 ∨ 2 ^ 52 ≤ k) := by
  obtain ⟨k, hunits, hk, hbits⟩ := Beamline.exists_significand m.spaced
  have hdiv : m.units / spacing m.units = k := Nat.div_eq_of_eq_mul_left (spacing_pos _) hunits
  have hfield : m.field = (m.units.log2 + 1 - 53) * 2 ^ 52 + k := by rw [← hdiv]; rfl
  -- A magnitude is bounded, and with it the place of its highest bit.
  have hexponent : m.units.log2 + 1 - 53 < 2046 := by
    by_cases hne : m.units = 0
    · rw [hne]
      decide
    · have hlog : m.units.log2 < overflowBits := (Nat.log2_lt hne).mpr m.bounded
      unfold overflowBits at hlog
      omega
  exact ⟨k, m.units.log2 + 1 - 53, hunits, hfield, hk, hexponent, hbits⟩

/-- The exponent field stays below the one that marks infinities and NaN. -/
theorem field_lt (m : Magnitude) : m.field < 2047 * 2 ^ 52 := by
  obtain ⟨k, e, -, hfield, hk, he, -⟩ := m.exists_significand
  omega

/-- **The fields of a magnitude are read back as its units.** -/
theorem magnitude_field (m : Magnitude) :
    FloatFormat.binary64.magnitude (m.field / 2 ^ 52) (m.field % 2 ^ 52) = m.units := by
  obtain ⟨k, e, hunits, hfield, hk, -, hbits⟩ := m.exists_significand
  unfold FloatFormat.magnitude FloatFormat.binary64
  dsimp only
  rw [hunits]
  rcases Nat.lt_or_ge k (2 ^ 52) with hlow | hhigh
  · obtain rfl : e = 0 := hbits.resolve_right (by omega)
    rw [if_pos (by omega), Nat.pow_zero, Nat.mul_one]
    omega
  · have hexponent : m.field / 2 ^ 52 = e + 1 := by omega
    have hfraction : m.field % 2 ^ 52 + 2 ^ 52 = k := by omega
    rw [hexponent, hfraction, if_neg (Nat.succ_ne_zero e), Nat.add_sub_cancel]

end Magnitude

namespace Binary64

theorem toBits_plus (m : Magnitude) : (finite .plus m).toBits = m.field := Nat.zero_add _

theorem toBits_minus (m : Magnitude) : (finite .minus m).toBits = 2 ^ 63 + m.field := rfl

theorem toBits_lt (x : Binary64) : x.toBits < 2 ^ 64 := by
  cases x with
  | nan => decide
  | infinite s => cases s <;> decide
  | finite s m =>
    have hfield := m.field_lt
    cases s with
    | plus =>
      rw [toBits_plus]
      omega
    | minus =>
      rw [toBits_minus]
      omega

/-- **A value is read back from its word.** -/
theorem ofBits_toBits (x : Binary64) : ofBits x.toBits = x := by
  cases x with
  | nan => decide
  | infinite s => cases s <;> decide
  | finite s m =>
    have hfield := m.field_lt
    -- The sign bit stands above the fields, and each of the three is cut out where it stands.
    obtain ⟨hfraction, hexponent, hsign⟩ : (finite s m).toBits % 2 ^ 52 = m.field % 2 ^ 52 ∧
        (finite s m).toBits / 2 ^ 52 % 2 ^ 11 = m.field / 2 ^ 52 ∧
        (if (finite s m).toBits / 2 ^ (52 + 11) % 2 = 1 then Sign.minus else Sign.plus) = s := by
      cases s with
      | plus =>
        rw [toBits_plus]
        exact ⟨rfl, by omega, if_neg (by omega)⟩
      | minus =>
        rw [toBits_minus]
        exact ⟨by omega, by omega, if_pos (by omega)⟩
    have hfinite : m.field / 2 ^ 52 ≠ FloatFormat.binary64.specialExponent := by
      have hspecial : FloatFormat.binary64.specialExponent = 2047 := rfl
      omega
    have hunit : oneBits - FloatFormat.binary64.unitExponent = 0 := rfl
    unfold ofBits FloatFormat.decode
    show (if (finite s m).toBits / 2 ^ 52 % 2 ^ 11 = _ then _ else
      round (if (finite s m).toBits / 2 ^ (52 + 11) % 2 = 1 then _ else _)
        (FloatFormat.binary64.magnitude ((finite s m).toBits / 2 ^ 52 % 2 ^ 11)
          ((finite s m).toBits % 2 ^ 52) * _) 1) = _
    rw [hfraction, hexponent, hsign, if_neg hfinite, m.magnitude_field, hunit, Nat.pow_zero,
      Nat.mul_one, round_units]

end Binary64
end Beamline
