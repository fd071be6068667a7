import Beamline.Arithmetic
import Beamline.Proofs.Binary64.Error
import Beamline.Proofs.Binary64.Overflow

/-!
# The mean of one value taken many times

Exact arithmetic makes the mean of equal values that value. Here it is a sum from left to right,
rounded at each step, and then a rounded quotient. Where all multiples of the value have room in 53
bits there is nothing to round, and the mean is exact (`AddsUp.numEq_mean`). Where they have not, an
error is made at every step, and it grows with the sum (`abs_total_replicate_sub_le`). The quotient
then is as near to the exact one as any value, so nearer than the common value, and that bounds what
the mean is off by (`abs_mean_replicate_sub_le`).
-/

set_option autoImplicit false

namespace Beamline

open Binary64

/-! ## One value, many times -/

/-- What has room in 53 bits is not rounded. -/
theorem nearestUnits_of_spaced {z : ℤ} (h : spacing z.natAbs ∣ z.natAbs)
    (hz : z.natAbs < overflowUnits) :
    nearestUnits z 1 = z := by
  unfold nearestUnits
  rw [roundUnits_of_spaced h, min_eq_left hz.le, Sign.ofInt_apply]

section

variable {x : Binary64} {n : Nat}

theorem total_replicate_succ (x : Binary64) (n : Nat) :
    total (List.replicate (n + 1) x) = total (List.replicate n x) + x := by
  unfold total
  rw [List.replicate_succ', List.foldl_append]
  rfl

theorem signed_total_nil : (total ([] : List Binary64)).signed = some 0 := by
  decide +kernel

namespace Binary64

/-- No sum of up to `n` copies of a value has to be rounded. -/
structure AddsUp (x : Binary64) (n : Nat) : Prop where
  spaced : ∀ k ≤ n, spacing (k * x.place.natAbs) ∣ k * x.place.natAbs
  bounded : n * x.place.natAbs < overflowUnits

/-- It is so for a value of few bits. -/
theorem addsUp_of_significand {k e : Nat} (hx : x.place.natAbs = k * 2 ^ e) (hbits : n * k ≤ 2 ^ 53)
    (hbounded : n * x.place.natAbs < overflowUnits) : x.AddsUp n where
  spaced := by
    intro j hj
    rw [hx, ← Nat.mul_assoc]
    exact spacing_dvd_mul_two_pow ((Nat.mul_le_mul_right k hj).trans hbits)
  bounded := hbounded

theorem AddsUp.signed_total (h : x.AddsUp n) (hx : x.isFinite = true) :
    ∀ k ≤ n, (total (List.replicate k x)).signed = some (k * x.place) := by
  intro k hk
  induction k with
  | zero =>
    rw [List.replicate_zero, Nat.cast_zero, zero_mul]
    exact signed_total_nil
  | succ k ih =>
    have hprevious := ih (Nat.le_of_succ_le hk)
    have hunits : ((k + 1 : Nat) * x.place : ℤ).natAbs = (k + 1) * x.place.natAbs := by
      rw [Int.natAbs_mul, Int.natAbs_natCast]
    have hlt : ((k + 1 : Nat) * x.place : ℤ).natAbs < overflowUnits := by
      rw [hunits]
      exact (Nat.mul_le_mul_right _ hk).trans_lt h.bounded
    have hexact := nearestUnits_of_spaced (by rw [hunits]; exact h.spaced (k + 1) hk) hlt
    have hposition := position?_add hprevious (signed_place hx)
    rw [← total_replicate_succ, show (k * x.place + x.place : ℤ) =
      (k + 1 : Nat) * x.place by push_cast; ring, hexact] at hposition
    exact signed_of_position? hposition hlt

/-- **A mean that nothing is rounded in** is the common value. -/
theorem AddsUp.numEq_mean (h : x.AddsUp n) (hx : x.isFinite = true) (hpos : 0 < n)
    (hn : n ≤ 2 ^ 53) :
    (mean (List.replicate n x)).numEq x = true := by
  have htotal := h.signed_total hx n le_rfl
  have hfinite := isFinite_iff.mpr ⟨_, htotal⟩
  have hplace := place_eq (position?_of_signed htotal)
  have hmean := position?_div_natCast hfinite hpos hn
  have hself : nearestUnits (n * x.place) n = x.place := by
    have hcongr := nearestUnits_congr hpos Nat.one_pos
      (by push_cast; ring : (n * x.place : ℤ) * (1 : Nat) = x.place * n)
    rw [hcongr, nearestUnits_position (position?_place hx)]
  rw [hplace, hself] at hmean
  unfold mean
  rw [List.length_replicate]
  exact (numEq_iff hmean (position?_place hx)).mpr rfl

end Binary64

/-! ## The error of the mean -/

theorem isFinite_of_add_right {x y : Binary64} (h : (x + y).isFinite = true)
    (hy : y.isFinite = true) :
    x.isFinite = true := by
  cases y with
  | nan => cases hy
  | infinite s => cases hy
  | finite s m =>
    cases x with
    | nan => cases h
    | infinite t => cases h
    | finite t n => rfl

/-- With an error of this size so far the exact sum that is rounded next is at most twice as large
as it should be. -/
theorem abs_next_le {s p : ℚ} (hn : n ≤ 2 ^ 53) (h : |s - n * p| ≤ n ^ 2 * roundoff * |p|) :
    |s + p| ≤ (2 * n + 1) * |p| := by
  have hsmall : (n : ℚ) * roundoff ≤ 1 := by
    have hcast : (n : ℚ) ≤ 2 ^ 53 := by exact_mod_cast hn
    unfold roundoff
    linarith
  have hexact : |(n : ℚ) * p + p| = (n + 1) * |p| := by
    rw [← add_one_mul, abs_mul, abs_of_nonneg (by positivity : (0 : ℚ) ≤ n + 1)]
  calc
    |s + p| = |(s - n * p) + (n * p + p)| := by congr 1; ring
    _ ≤ |s - n * p| + |n * p + p| := abs_add_le _ _
    _ ≤ n * (n * roundoff) * |p| + (n + 1) * |p| := by rw [hexact]; linarith
    _ ≤ n * 1 * |p| + (n + 1) * |p| := by gcongr
    _ = (2 * n + 1) * |p| := by ring

/-- Each step adds an error in proportion to the sum so far, so the errors add up to the square of
their number. -/
theorem abs_total_replicate_sub_le (hx : x.isFinite = true) (hn : n ≤ 2 ^ 53)
    (h : (total (List.replicate n x)).isFinite = true) :
    |((total (List.replicate n x)).place : ℚ) - n * x.place| ≤
      n ^ 2 * roundoff * |(x.place : ℚ)| := by
  induction n with
  | zero =>
    rw [List.replicate_zero, place_eq (position?_of_signed signed_total_nil)]
    simp
  | succ n ih =>
    rw [total_replicate_succ] at h ⊢
    have hprevious := isFinite_of_add_right h hx
    have hsum := ih (Nat.le_of_succ_le hn) hprevious
    have hnext := abs_next_le (Nat.le_of_succ_le hn) hsum
    have hstep := abs_place_add_sub_le hprevious hx h
    generalize ((total (List.replicate n x)).place : ℚ) = s at hsum hnext hstep
    generalize ((total (List.replicate n x) + x).place : ℚ) = t at hstep
    generalize (x.place : ℚ) = p at hsum hnext hstep ⊢
    calc
      |t - (n + 1 : Nat) * p| = |(t - (s + p)) + (s - n * p)| := by congr 1; push_cast; ring
      _ ≤ |t - (s + p)| + |s - n * p| := abs_add_le _ _
      _ ≤ (2 * n + 1) * |p| * roundoff + n ^ 2 * roundoff * |p| := by
        have hrounded := mul_le_mul_of_nonneg_right hnext roundoff_nonneg
        linarith
      _ = (n + 1 : Nat) ^ 2 * roundoff * |p| := by push_cast; ring

/-- The mean is off by a part of the common value that grows with the number of copies. -/
theorem abs_mean_replicate_sub_le (hx : x.isFinite = true) (hpos : 0 < n) (hn : n ≤ 2 ^ 53)
    (h : (mean (List.replicate n x)).isFinite = true) :
    |(mean (List.replicate n x)).toRat - x.toRat| ≤ n / 2 ^ 52 * |x.toRat| := by
  have hn' : (0 : ℚ) < n := by exact_mod_cast hpos
  unfold mean at h ⊢
  rw [List.length_replicate] at h ⊢
  have htotal := isFinite_of_div_left h
  have hsum := abs_total_replicate_sub_le hx hn htotal
  have hposition := position?_div_natCast htotal hpos hn
  have hnear :=
    abs_nearestUnits_sub_le_of_signed hpos (signed_place hx) (natAbs_nearestUnits_lt hposition h)
  rw [← place_eq hposition] at hnear
  have hquotient : |(x.place : ℚ) - (total (List.replicate n x)).place / n| ≤
      n * roundoff * |(x.place : ℚ)| := by
    have hscaled : (x.place : ℚ) - (total (List.replicate n x)).place / n =
        -((total (List.replicate n x)).place - n * x.place) / n := by
      field_simp
      ring
    rw [hscaled, abs_div, abs_neg, abs_of_pos hn', div_le_iff₀ hn']
    linarith
  have hplaces : |((total (List.replicate n x) / (n : Binary64)).place : ℚ) - x.place| ≤
      n / 2 ^ 52 * |(x.place : ℚ)| := by
    have htriangle := abs_sub_le ((total (List.replicate n x) / (n : Binary64)).place : ℚ)
      ((total (List.replicate n x)).place / n) x.place
    rw [abs_sub_comm ((total (List.replicate n x)).place / n : ℚ)] at htriangle
    unfold roundoff at hquotient
    linarith
  unfold toRat
  rw [← sub_div, abs_div, abs_div, abs_of_pos unitsPerOne_cast_pos, ← mul_div_assoc]
  exact div_le_div_of_nonneg_right hplaces unitsPerOne_cast_pos.le

end

/-! ## Both together -/

/-- What is known of a mean of `n` copies of a value: it is the value if no sum on the way has to be
rounded, and otherwise it is off by a small part of it for each copy. -/
structure Binary64.IsMeanOfCopies (mean : Binary64) (n : Nat) (x : Binary64) : Prop where
  exact : n ≤ 2 ^ 53 → x.AddsUp n → mean.numEq x = true
  near : n ≤ 2 ^ 53 → mean.isFinite = true → |mean.toRat - x.toRat| ≤ n / 2 ^ 52 * |x.toRat|

theorem isMeanOfCopies {x : Binary64} {n : Nat} (hx : x.isFinite = true) (hpos : 0 < n) :
    (mean (List.replicate n x)).IsMeanOfCopies n x where
  exact := fun hn h => h.numEq_mean hx hpos hn
  near := fun hn h => abs_mean_replicate_sub_le hx hpos hn h

end Beamline
