import Beamline.Binary64.Literal
import Beamline.Proofs.Binary64.Neighbours

/-!
# Shortest decimals — printed digits are read back

The digits of a magnitude are found by trying decimal grids, coarse ones first, until one has a
point that the magnitude attracts. So reading them back is rounding such a point, provided that the
search does find one. It does, because the grid of the smallest magnitude, `10 ^ (-1074)`, has the
magnitude itself among its points, and the search goes down to that grid if it has to.

Reading decides some decimals by their size alone, before it computes anything. The size is an
estimate of the leading decimal digit's place from the leading binary digit's, by a factor that is a
little too large. It never decides the case of a decimal that comes from a magnitude
(`log2_bounds_of_whole`, `log2_bounds_of_fraction`), and what is left is the rounding.
-/

set_option autoImplicit false

namespace Beamline

/-! ## Decimals as numbers -/

namespace Decimal

/-- The number that a decimal is, exactly. -/
def toRat (d : Decimal) : ℚ := d.digits * 10 ^ d.exponent

theorem powDen_pos (e : ℤ) : 0 < powDen e := Nat.pow_pos (by decide)

theorem powNum_div_powDen (e : ℤ) : (powNum e : ℚ) / powDen e = 10 ^ e := by
  unfold powNum powDen
  obtain ⟨n, rfl | rfl⟩ := e.eq_nat_or_neg
  · simp
  · simp

theorem toRat_mul_eq_div (d : Decimal) (n : Nat) :
    d.toRat * n = (d.digits * powNum d.exponent * n : Nat) / (powDen d.exponent : ℚ) := by
  unfold toRat
  rw [← powNum_div_powDen]
  push_cast
  ring

/-- A zero that is taken off the digits is put into the exponent, and the number stays. The search
works with many digits, and the zeros at their end are taken off before printing. -/
theorem toRat_strip (fuel : Nat) (d : Decimal) : (strip fuel d).toRat = d.toRat := by
  induction fuel generalizing d with
  | zero => rfl
  | succ fuel ih =>
    unfold strip
    split
    next hzero =>
      rw [ih]
      have hdigits : (d.digits : ℚ) = (d.digits / 10 : Nat) * 10 := by
        exact_mod_cast (Nat.div_mul_cancel (Nat.dvd_of_mod_eq_zero hzero)).symm
      unfold toRat
      dsimp only
      rw [zpow_add_one₀ (by norm_num), hdigits]
      ring
    next => rfl

theorem le_exponent_strip (fuel : Nat) (d : Decimal) : d.exponent ≤ (strip fuel d).exponent := by
  induction fuel generalizing d with
  | zero => exact Int.le_refl _
  | succ fuel ih =>
    unfold strip
    split
    · have := ih ⟨d.digits / 10, d.exponent + 1⟩
      dsimp only at this
      omega
    · exact Int.le_refl _

end Decimal

namespace Magnitude

/-- The test of the search is whether a decimal is attracted. The test compares whole numbers; what
it means is said of the exact number. -/
theorem readsBack_iff (m : Magnitude) (d : Decimal) :
    m.readsBack d = true ↔ m.Attracts (d.toRat * unitsPerOne) := by
  have hden : (0 : ℚ) < Decimal.powDen d.exponent := by
    exact_mod_cast Decimal.powDen_pos d.exponent
  have hpoint : 4 * (d.toRat * unitsPerOne) =
      (d.digits * Decimal.powNum d.exponent * (4 * unitsPerOne) : Nat) /
        (Decimal.powDen d.exponent : ℚ) := by
    rw [← Decimal.toRat_mul_eq_div]
    push_cast
    ring
  unfold readsBack Attracts
  dsimp only
  rw [hpoint]
  split
  · rw [Bool.and_eq_true, decide_eq_true_eq, decide_eq_true_eq, le_div_iff₀ hden, div_le_iff₀ hden]
    norm_cast
  · rw [Bool.and_eq_true, decide_eq_true_eq, decide_eq_true_eq, lt_div_iff₀ hden, div_lt_iff₀ hden]
    norm_cast

/-! ## The search -/

/-- The finest grid has the magnitude itself, since a unit is a multiple of its step. So the search,
which ends there, finds something. -/
theorem toRat_below (m : Magnitude) :
    (⟨m.below (-oneBits), -oneBits⟩ : Decimal).toRat * unitsPerOne = m.units := by
  have hnum : Decimal.powNum (-(oneBits : ℤ)) = 1 := by simp [Decimal.powNum]
  have hden : Decimal.powDen (-(oneBits : ℤ)) = unitsPerOne * 5 ^ oneBits := by
    unfold Decimal.powDen unitsPerOne
    rw [neg_neg, Int.toNat_natCast, ← Nat.mul_pow]
  have hbelow : m.below (-oneBits) = m.units * 5 ^ oneBits := by
    unfold below
    rw [hnum, hden, Nat.mul_one, Nat.mul_left_comm, Nat.mul_div_cancel_left _ unitsPerOne_pos]
  have hu : (unitsPerOne : ℚ) ≠ 0 := by exact_mod_cast unitsPerOne_pos.ne'
  have h5 : ((5 : ℚ) ^ oneBits) ≠ 0 := by positivity
  rw [Decimal.toRat_mul_eq_div]
  dsimp only
  rw [hbelow, hnum, hden]
  push_cast
  field_simp

/-- Whatever the search finds is attracted, and not of a finer grid. The induction is on the grids
that are left. -/
theorem search_spec {m : Magnitude} (hm : 0 < m.units) (fuel : Nat) (e : ℤ)
    (he : e = fuel - oneBits) :
    m.readsBack (m.search fuel e) = true ∧ -oneBits ≤ (m.search fuel e).exponent := by
  induction fuel generalizing e with
  | zero =>
    have he : e = -oneBits := by omega
    subst he
    refine ⟨?_, Int.le_refl _⟩
    rw [readsBack_iff]
    show m.Attracts ((⟨m.below (-oneBits), -oneBits⟩ : Decimal).toRat * unitsPerOne)
    rw [m.toRat_below]
    exact attracts_self hm
  | succ fuel ih =>
    unfold search
    dsimp only
    split
    next hlower hupper =>
      split
      · exact ⟨hupper, by dsimp only; omega⟩
      · exact ⟨hlower, by dsimp only; omega⟩
    next hlower _ => exact ⟨hlower, by dsimp only; omega⟩
    next _ hupper => exact ⟨hupper, by dsimp only; omega⟩
    next => exact ih (e - 1) (by omega)

theorem attracts_shortest {m : Magnitude} (hm : 0 < m.units) :
    m.Attracts (m.shortest.toRat * unitsPerOne) ∧ -oneBits ≤ m.shortest.exponent := by
  have hfuel : m.leadingExponent =
      ((m.leadingExponent + oneBits).toNat : Nat) - (oneBits : ℤ) := by
    unfold leadingExponent oneBits
    omega
  obtain ⟨hback, hexponent⟩ := search_spec hm _ _ hfuel
  unfold shortest
  rw [if_neg hm.ne']
  dsimp only
  constructor
  · rw [Decimal.toRat_strip, ← readsBack_iff]
    exact hback
  · exact hexponent.trans (Decimal.le_exponent_strip ..)

/-- What a magnitude above zero attracts is not next to zero, and not much larger than the largest
of them (`lt_of_attracts`). These are the bounds that the size of a decimal is compared with. -/
theorem half_le_of_attracts {m : Magnitude} (hm : 0 < m.units) {q : ℚ} (h : m.Attracts q) :
    1 ≤ 2 * q := by
  have hgap : (m.twiceGapBelow : ℚ) ≤ 2 * spacing m.units := by
    exact_mod_cast m.twiceGapBelow_le_spacing
  have hs : (spacing m.units : ℚ) ≤ m.units := by exact_mod_cast spacing_le_units hm
  have hone : (1 : ℚ) ≤ m.units := by exact_mod_cast hm
  have hlow := h.le.1
  rw [cast_lowQuarters hm] at hlow
  linarith

theorem lt_of_attracts {m : Magnitude} (hm : 0 < m.units) {q : ℚ} (h : m.Attracts q) :
    q < 2 * overflowUnits := by
  have hs : (spacing m.units : ℚ) ≤ m.units := by exact_mod_cast spacing_le_units hm
  have hbound : (m.units : ℚ) < overflowUnits := by exact_mod_cast m.bounded
  have hhigh := h.le.2
  rw [cast_highQuarters] at hhigh
  linarith

end Magnitude

/-! ## The size of a decimal -/

/-- Ten is more than three bits. -/
theorem log2_bounds_of_whole {digits e n : Nat} (hdigits : digits ≠ 0)
    (h : digits * 10 ^ e < 2 ^ n) :
    digits.log2 + 3 * e < n := by
  refine (Nat.pow_lt_pow_iff_right (a := 2) (by decide)).mp (lt_of_le_of_lt ?_ h)
  rw [Nat.pow_add, Nat.pow_mul]
  exact Nat.mul_le_mul (Nat.log2_self_le hdigits) (Nat.pow_le_pow_left (by decide) e)

/-- Ten is less than ten thirds of a bit, and more than 93 in 28, which is as much as the estimate
of the leading digit needs. -/
theorem log2_bounds_of_fraction {digits k a b : Nat} (hdigits : digits ≠ 0)
    (hhigh : digits < 2 ^ a * 10 ^ k) (hlow : 10 ^ k ≤ digits * 2 ^ b) :
    3 * digits.log2 < 3 * a + 10 * k ∧ 93 * k < 28 * (digits.log2 + 1 + b) := by
  constructor
  · refine (Nat.pow_lt_pow_iff_right (a := 2) (by decide)).mp ?_
    calc
      2 ^ (3 * digits.log2) = (2 ^ digits.log2) ^ 3 := by rw [← Nat.pow_mul, Nat.mul_comm]
      _ ≤ digits ^ 3 := Nat.pow_le_pow_left (Nat.log2_self_le hdigits) 3
      _ < (2 ^ a * 10 ^ k) ^ 3 := Nat.pow_lt_pow_left hhigh (by decide)
      _ = 2 ^ (3 * a) * (10 ^ 3) ^ k := by
        rw [Nat.mul_pow, ← Nat.pow_mul, ← Nat.pow_mul, ← Nat.pow_mul, Nat.mul_comm a,
          Nat.mul_comm k]
      _ ≤ 2 ^ (3 * a) * (2 ^ 10) ^ k :=
        Nat.mul_le_mul_left _ (Nat.pow_le_pow_left (by decide) k)
      _ = 2 ^ (3 * a + 10 * k) := by rw [← Nat.pow_mul, ← Nat.pow_add]
  · refine (Nat.pow_lt_pow_iff_right (a := 2) (by decide)).mp ?_
    calc
      2 ^ (93 * k) = (2 ^ 93) ^ k := Nat.pow_mul ..
      _ ≤ (10 ^ 28) ^ k := Nat.pow_le_pow_left (by decide) k
      _ = (10 ^ k) ^ 28 := by rw [← Nat.pow_mul, ← Nat.pow_mul, Nat.mul_comm]
      _ ≤ (digits * 2 ^ b) ^ 28 := Nat.pow_le_pow_left hlow 28
      _ < (2 ^ (digits.log2 + 1) * 2 ^ b) ^ 28 := by
        refine Nat.pow_lt_pow_left ?_ (by decide)
        exact Nat.mul_lt_mul_of_pos_right Nat.lt_log2_self (Nat.two_pow_pos b)
      _ = 2 ^ (28 * (digits.log2 + 1 + b)) := by
        rw [← Nat.pow_add, ← Nat.pow_mul, Nat.mul_comm]

/-! ## Reading back -/

theorem two_mul_unitsPerOne : 2 * unitsPerOne = 2 ^ (oneBits + 1) := by
  rw [Nat.pow_succ', unitsPerOne]

theorem two_mul_overflowUnits :
    2 * overflowUnits = 2 ^ (overflowBits + 1 - oneBits) * unitsPerOne := by
  unfold overflowUnits unitsPerOne
  rw [← Nat.pow_add, ← Nat.pow_succ', Nat.sub_add_cancel (by decide)]

namespace Binary64

theorem digits_ne_zero_of_attracts {m : Magnitude} (hm : 0 < m.units) {d : Decimal}
    (h : m.Attracts (d.toRat * unitsPerOne)) : d.digits ≠ 0 := by
  intro hzero
  have hhalf := Magnitude.half_le_of_attracts hm h
  unfold Decimal.toRat at hhalf
  rw [hzero, Nat.cast_zero, zero_mul, zero_mul, mul_zero] at hhalf
  linarith

/-- **A decimal that a magnitude attracts is read as that magnitude.** -/
theorem ofDecimal_of_attracts {m : Magnitude} (hm : 0 < m.units) {d : Decimal}
    (h : m.Attracts (d.toRat * unitsPerOne)) (hexponent : -oneBits ≤ d.exponent) (sign : Sign) :
    ofDecimal sign d.digits d.exponent = finite sign m := by
  have hdigits := digits_ne_zero_of_attracts hm h
  have hlow := Magnitude.half_le_of_attracts hm h
  have hhigh := Magnitude.lt_of_attracts hm h
  have hround := h
  obtain ⟨digits, exponent⟩ := d
  rw [Decimal.toRat_mul_eq_div] at hlow hhigh hround
  dsimp only at hdigits hexponent hlow hhigh hround ⊢
  unfold ofDecimal
  dsimp only
  rw [if_neg hdigits]
  cases exponent with
  | ofNat e =>
    have hnum : Decimal.powNum (Int.ofNat e) = 10 ^ e := rfl
    have hden : Decimal.powDen (Int.ofNat e) = 1 := by simp [Decimal.powDen]
    rw [hnum, hden] at hhigh hround
    have hbound : digits * 10 ^ e < 2 ^ (overflowBits + 1 - oneBits) := by
      rw [Nat.cast_one, div_one] at hhigh
      have hunits : digits * 10 ^ e * unitsPerOne < 2 * overflowUnits := by exact_mod_cast hhigh
      rw [two_mul_overflowUnits] at hunits
      exact Nat.lt_of_mul_lt_mul_right hunits
    have hlog := log2_bounds_of_whole hdigits hbound
    unfold overflowBits oneBits at hlog
    have hexp : Int.ofNat e = (e : ℤ) := rfl
    rw [if_neg (by omega), if_neg (by omega)]
    exact hround.round_eq Nat.one_pos sign
  | negSucc e =>
    have hnum : Decimal.powNum (Int.negSucc e) = 1 := rfl
    have hden : Decimal.powDen (Int.negSucc e) = 10 ^ (e + 1) := rfl
    have hpos : (0 : ℚ) < (10 ^ (e + 1) : Nat) := by positivity
    rw [hnum, hden, Nat.mul_one] at hlow hhigh hround
    rw [div_lt_iff₀ hpos] at hhigh
    rw [mul_div_assoc', le_div_iff₀ hpos, one_mul] at hlow
    have hbound : digits < 2 ^ (overflowBits + 1 - oneBits) * 10 ^ (e + 1) := by
      have hunits : digits * unitsPerOne < 2 * overflowUnits * 10 ^ (e + 1) := by
        exact_mod_cast hhigh
      rw [two_mul_overflowUnits, Nat.mul_right_comm] at hunits
      exact Nat.lt_of_mul_lt_mul_right hunits
    have hbound' : 10 ^ (e + 1) ≤ digits * 2 ^ (oneBits + 1) := by
      have hunits : 10 ^ (e + 1) ≤ 2 * (digits * unitsPerOne) := by exact_mod_cast hlow
      rw [Nat.mul_left_comm, two_mul_unitsPerOne] at hunits
      exact hunits
    have hlog := log2_bounds_of_fraction hdigits hbound hbound'
    have hexp : Int.negSucc e = -((e : ℤ) + 1) := Int.negSucc_eq e
    unfold overflowBits oneBits at hlog
    unfold oneBits at hexponent
    rw [if_neg (by omega), if_neg (by omega)]
    exact hround.round_eq (Nat.pow_pos (by decide)) sign

end Binary64
end Beamline
