import Beamline.Proofs.Binary64.Neighbours
import Beamline.Proofs.Binary64.Order

/-!
# Error — how far a result is from the exact one

Rounding misses by half a spacing at most, and a spacing is a small part of what is spaced, except
below the least number with 53 bits, where it is one unit. Sums, differences and multiples are whole
numbers of units, so nothing is lost there, and their error is relative throughout
(`abs_nearestUnits_sub_le`). A quotient need not be whole, and can miss by half a unit more
(`abs_nearestUnits_div_sub_le`).

Two values can be so close together that an error bound does not tell which of them is nearer. Then
the promise of rounding itself does (`abs_nearestUnits_sub_le_of_signed`). A quotient that is
rounded up to a whole number was within a roundoff of it (`mul_le_of_le_roundUnits`), and there the
bound is enough: two different values are further apart than that (`mul_lt_of_place_lt`).
-/

set_option autoImplicit false

namespace Beamline

/-- The relative error of a rounding, at most: half a spacing, of which there are `2 ^ 52` in a
number with all of its bits. -/
def roundoff : ℚ := 1 / 2 ^ 53

theorem roundoff_nonneg : 0 ≤ roundoff := by
  unfold roundoff
  positivity

/-! ## Magnitudes -/

theorem spacing_mul_le {n : Nat} (h : 2 ^ 52 ≤ n) : spacing n * 2 ^ 52 ≤ n := by
  have hn : n ≠ 0 := by
    have := Nat.two_pow_pos 52
    omega
  have hlog : 52 ≤ n.log2 := (Nat.le_log2 hn).mpr h
  unfold spacing
  rw [← Nat.pow_add, show n.log2 + 1 - 53 + 52 = n.log2 by omega]
  exact Nat.log2_self_le hn

/-- Up to 53 bits there is a magnitude at every unit. -/
theorem spacing_eq_one {n : Nat} (h : n < 2 ^ 53) : spacing n = 1 := by
  unfold spacing
  by_cases hn : n = 0
  · subst hn
    rfl
  · have hlog : n.log2 < 53 := (Nat.log2_lt hn).mpr h
    rw [show n.log2 + 1 - 53 = 0 by omega, Nat.pow_zero]

section

variable {num den : Nat}

/-- Where there are enough bits, the error is relative. -/
theorem abs_roundUnits_sub_le_mul (hd : 0 < den) (h : 2 ^ 52 ≤ num / den) :
    |(roundUnits num den : ℚ) - num / den| ≤ num / den * roundoff := by
  have hhalf := @abs_roundUnits_sub_le_half num den hd
  have hspacing : (spacing (num / den) : ℚ) * 2 ^ 52 ≤ (num / den : Nat) := by
    exact_mod_cast spacing_mul_le h
  have hfloor : ((num / den : Nat) : ℚ) ≤ num / den := Nat.cast_div_le
  unfold roundoff
  linarith

/-- A whole number of units is rounded with a relative error. Below `2 ^ 53` it is not rounded at
all, so there is no case that the relative error does not cover. -/
theorem abs_roundUnits_one_sub_le (n : Nat) : |(roundUnits n 1 : ℚ) - n| ≤ n * roundoff := by
  by_cases h : n < 2 ^ 53
  · rw [roundUnits_of_spaced (by rw [spacing_eq_one h]; exact Nat.one_dvd n), sub_self, abs_zero]
    unfold roundoff
    positivity
  · have hlarge : 2 ^ 52 ≤ n / 1 := by
      rw [Nat.div_one]
      exact (Nat.pow_le_pow_right Nat.two_pos (by decide)).trans (not_lt.mp h)
    simpa using abs_roundUnits_sub_le_mul Nat.one_pos hlarge

/-- Any quotient is rounded with a relative error, and half a unit. -/
theorem abs_roundUnits_sub_le_add (hd : 0 < den) :
    |(roundUnits num den : ℚ) - num / den| ≤ num / den * roundoff + 1 / 2 := by
  have hquotient : (0 : ℚ) ≤ num / den := by positivity
  by_cases h : 2 ^ 52 ≤ num / den
  · have := abs_roundUnits_sub_le_mul hd h
    linarith
  · have hhalf := @abs_roundUnits_sub_le_half num den hd
    rw [spacing_eq_one (by omega)] at hhalf
    have : 0 ≤ (num : ℚ) / den * roundoff := by
      unfold roundoff
      positivity
    push_cast at hhalf
    linarith

end

/-! ## Whole quotients -/

section

variable {num den k : Nat}

/-- A quotient that is rounded to one or more has all of its bits. -/
theorem two_pow_le_div (hd : 0 < den) (h : unitsPerOne ≤ roundUnits num den) :
    2 ^ 52 ≤ num / den := by
  by_contra hlt
  have hnum : num ≤ 2 ^ 52 * den := ((Nat.div_lt_iff_lt_mul hd).mp (not_le.mp hlt)).le
  have hround := roundUnits_le hd (spacing_dvd_two_pow 52) hnum
  have hone : 2 ^ 52 < unitsPerOne := Nat.pow_lt_pow_right Nat.one_lt_two (by decide)
  omega

/-- **Rounding a quotient up to a whole number** is done over a small part of it only. It has all of
its bits then, and its error is relative. -/
theorem mul_le_of_le_roundUnits (hd : 0 < den) (hk : k ≤ 2 ^ 53)
    (h : k * unitsPerOne ≤ roundUnits (num * unitsPerOne) den) :
    (k * den : ℚ) ≤ num * (1 + roundoff) := by
  rcases Nat.lt_or_ge num (k * den) with hlt | hge
  · have hpos : 0 < k := Nat.pos_of_ne_zero fun hzero => by simp [hzero] at hlt
    have hspaced : spacing (k * unitsPerOne) ∣ k * unitsPerOne := spacing_dvd_mul_two_pow hk
    have hup : roundUnits (num * unitsPerOne) den ≤ k * unitsPerOne := by
      refine roundUnits_le hd hspaced ?_
      calc
        num * unitsPerOne ≤ k * den * unitsPerOne := Nat.mul_le_mul_right _ hlt.le
        _ = k * unitsPerOne * den := Nat.mul_right_comm _ _ _
    have heq := le_antisymm hup h
    have hone : unitsPerOne ≤ roundUnits (num * unitsPerOne) den :=
      (Nat.le_mul_of_pos_left _ hpos).trans h
    have herror := (abs_le.mp (abs_roundUnits_sub_le_mul hd (two_pow_le_div hd hone))).2
    rw [heq] at herror
    push_cast at herror
    have hd' : (0 : ℚ) < den := by exact_mod_cast hd
    have hquotient : (k : ℚ) ≤ num / den * (1 + roundoff) := by
      refine le_of_mul_le_mul_right ?_ Binary64.unitsPerOne_cast_pos
      rw [mul_div_right_comm] at herror
      linarith
    calc
      (k * den : ℚ) ≤ num / den * (1 + roundoff) * den :=
        mul_le_mul_of_nonneg_right hquotient hd'.le
      _ = num * (1 + roundoff) := by field_simp
  · have hle : (k * den : ℚ) ≤ num := by exact_mod_cast hge
    have hnonneg : (0 : ℚ) ≤ num * roundoff := mul_nonneg (Nat.cast_nonneg _) roundoff_nonneg
    linarith

end

/-! ## With a sign -/

section

variable {z : ℤ} {den : Nat}

theorem abs_nearestUnits_sub_eq (h : (nearestUnits z den).natAbs < overflowUnits) :
    |(nearestUnits z den : ℚ) - z / den| = |(roundUnits z.natAbs den : ℚ) - z.natAbs / den| := by
  have hround : nearestUnits z den = (Sign.ofInt z).apply (roundUnits z.natAbs den) := by
    rw [natAbs_nearestUnits] at h
    unfold nearestUnits
    rw [min_eq_left (by omega)]
  have hz := Sign.ofInt_apply z
  rw [hround]
  cases hs : Sign.ofInt z with
  | plus =>
    rw [hs, Sign.apply] at hz
    rw [Sign.apply, Int.cast_natCast, ← Int.cast_natCast z.natAbs, hz]
  | minus =>
    rw [hs, Sign.apply] at hz
    have hz' : (z : ℚ) = -(z.natAbs : ℚ) := by exact_mod_cast hz.symm
    rw [Sign.apply, hz', ← abs_neg]
    push_cast
    ring_nf

/-- A whole number of units is rounded with a relative error. -/
theorem abs_nearestUnits_sub_le (h : (nearestUnits z 1).natAbs < overflowUnits) :
    |(nearestUnits z 1 : ℚ) - z| ≤ |(z : ℚ)| * roundoff := by
  have heq := abs_nearestUnits_sub_eq h
  rw [Nat.cast_one, div_one, div_one] at heq
  rw [heq, ← Int.cast_abs, ← Nat.cast_natAbs]
  exact abs_roundUnits_one_sub_le z.natAbs

/-- A part of a number of units is rounded with a relative error, and half a unit. -/
theorem abs_nearestUnits_div_sub_le (hd : 0 < den)
    (h : (nearestUnits z den).natAbs < overflowUnits) :
    |(nearestUnits z den : ℚ) - z / den| ≤ |(z : ℚ)| / den * roundoff + 1 / 2 := by
  rw [abs_nearestUnits_sub_eq h, ← Int.cast_abs, ← Nat.cast_natAbs]
  exact abs_roundUnits_sub_le_add hd

/-- No value is nearer to a part of a number of units than what it is rounded to. This is sharper
than any error bound, and is used where two values are next to each other. -/
theorem abs_nearestUnits_sub_le_of_signed {x : Binary64} {n : ℤ} (hd : 0 < den)
    (hx : x.signed = some n) (h : (nearestUnits z den).natAbs < overflowUnits) :
    |(nearestUnits z den : ℚ) - z / den| ≤ |(n : ℚ) - z / den| := by
  obtain ⟨s, m, -, rfl⟩ := Binary64.signed_eq_some hx
  have habs : |((s.apply m.units : ℤ) : ℚ)| = m.units := by
    rw [← Int.cast_abs, ← Nat.cast_natAbs, Sign.natAbs_apply]
  have hquotient : |(z : ℚ) / den| = z.natAbs / den := by
    rw [abs_div, Nat.abs_cast, ← Int.cast_abs, ← Nat.cast_natAbs]
  calc
    |(nearestUnits z den : ℚ) - z / den| = |(roundUnits z.natAbs den : ℚ) - z.natAbs / den| :=
      abs_nearestUnits_sub_eq h
    _ ≤ |(m.units : ℚ) - z.natAbs / den| := abs_roundUnits_sub_le hd m.spaced
    _ = |(|((s.apply m.units : ℤ) : ℚ)| - |(z : ℚ) / den|)| := by rw [habs, hquotient]
    _ ≤ |((s.apply m.units : ℤ) : ℚ) - z / den| := abs_abs_sub_abs_le _ _

end

/-! ## The operations -/

namespace Binary64

variable {x y : Binary64}

theorem natAbs_nearestUnits_lt {z : ℤ} {den : Nat} (hx : x.position? = some (nearestUnits z den))
    (h : x.isFinite = true) : (nearestUnits z den).natAbs < overflowUnits := by
  rw [← place_eq hx]
  exact natAbs_place_lt h

section

variable (hx : x.isFinite = true)

include hx

theorem abs_place_add_sub_le (hy : y.isFinite = true) (h : (x + y).isFinite = true) :
    |((x + y).place : ℚ) - (x.place + y.place)| ≤ |(x.place + y.place : ℚ)| * roundoff := by
  have hposition := position?_add (signed_place hx) (signed_place hy)
  rw [place_eq hposition]
  exact_mod_cast abs_nearestUnits_sub_le (natAbs_nearestUnits_lt hposition h)

theorem abs_place_sub_sub_le (hy : y.isFinite = true) (h : (x - y).isFinite = true) :
    |((x - y).place : ℚ) - (x.place - y.place)| ≤ |(x.place - y.place : ℚ)| * roundoff := by
  have hposition := position?_sub (signed_place hx) (signed_place hy)
  rw [place_eq hposition]
  exact_mod_cast abs_nearestUnits_sub_le (natAbs_nearestUnits_lt hposition h)

variable {n : Nat}

theorem abs_place_mul_sub_le (hn : n ≤ 2 ^ 53) (h : (x * (n : Binary64)).isFinite = true) :
    |((x * (n : Binary64)).place : ℚ) - x.place * n| ≤ |(x.place * n : ℚ)| * roundoff := by
  have hposition := position?_mul_natCast hx hn
  rw [place_eq hposition]
  exact_mod_cast abs_nearestUnits_sub_le (natAbs_nearestUnits_lt hposition h)

theorem abs_place_div_sub_le (hpos : 0 < n) (hn : n ≤ 2 ^ 53)
    (h : (x / (n : Binary64)).isFinite = true) :
    |((x / (n : Binary64)).place : ℚ) - x.place / n| ≤ |(x.place : ℚ)| / n * roundoff + 1 / 2 := by
  have hposition := position?_div_natCast hx hpos hn
  rw [place_eq hposition]
  exact abs_nearestUnits_div_sub_le hpos (natAbs_nearestUnits_lt hposition h)

end

/-! ## Gaps -/

theorem exists_spaced (hx : x.isFinite = true) (hnonneg : 0 ≤ x.place) :
    ∃ n : Nat, x.place = n ∧ spacing n ∣ n := by
  obtain ⟨s, m, -, hm⟩ := signed_eq_some (signed_place hx)
  have habs : x.place.natAbs = m.units := by rw [hm, Sign.natAbs_apply]
  exact ⟨m.units, by omega, m.spaced⟩

/-- Different values are further apart than an error is. So where one of them has been reached up to
an error, the other has not. -/
theorem mul_lt_of_place_lt (hx : x.isFinite = true) (hy : y.isFinite = true) (hnonneg : 0 ≤ x.place)
    (hlt : x.place < y.place) : (x.place : ℚ) * (1 + roundoff) < y.place := by
  obtain ⟨m, hm, hspaced⟩ := exists_spaced hx hnonneg
  obtain ⟨n, hn, hspaced'⟩ := exists_spaced hy (hnonneg.trans hlt.le)
  rw [hm, hn] at hlt ⊢
  have hnext : (m + spacing m : ℚ) ≤ n := by
    exact_mod_cast add_spacing_le hspaced hspaced' (by exact_mod_cast hlt)
  have hbits : (m : ℚ) < 2 ^ 53 * spacing m := by
    exact_mod_cast (Nat.div_lt_iff_lt_mul (spacing_pos m)).mp (div_spacing_lt m)
  push_cast
  unfold roundoff
  linarith

end Binary64
end Beamline
