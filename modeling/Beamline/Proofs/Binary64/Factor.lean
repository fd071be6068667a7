import Beamline.Proofs.Binary64.Overflow

/-!
# Factors — products and quotients of every kind of value

A product may have an infinity in it, or be NaN. For the place where it stands this makes no
difference, if an infinity counts for enough units: all its multiples are then rounded to an
infinity, but for the one by zero, and that stands at zero, which is also where NaN is put. What a
value counts for is its `factor`, and with it there is one formula for where a product stands
(`place_mul`) and one for a quotient (`place_div`), whatever the values are.

An order between products is then an order between whole numbers, rounded. It takes no cases, and it
holds across overflow and NaN: a factor from zero upwards keeps the order of what it multiplies
(`place_mul_mono`).
-/

set_option autoImplicit false

namespace Beamline

/-- What is large enough is rounded to an infinity. -/
theorem nearestUnits_of_overflow (s : Sign) {n den : Nat} (hd : 0 < den)
    (h : overflowUnits * den ≤ n) :
    nearestUnits (s.apply n) den = s.apply overflowUnits := by
  rw [nearestUnits_apply, min_eq_right (le_roundUnits hd spacing_dvd_overflowUnits h)]

/-- The least number of units that no finite value reaches is still no more than the square of
one. -/
theorem overflowUnits_le : overflowUnits ≤ unitsPerOne * unitsPerOne := by
  unfold overflowUnits unitsPerOne
  rw [← Nat.pow_add]
  exact Nat.pow_le_pow_right Nat.two_pos (by decide)

namespace Binary64

variable {x y z : Binary64}

/-! ## Comparing by place -/

theorem place_le_place (h : x.le y = true) : x.place ≤ y.place := by
  unfold le at h
  unfold place
  cases hx : x.position? with
  | none => simp [hx] at h
  | some p =>
    cases hy : y.position? with
    | none => simp [hx, hy] at h
    | some q => simpa [hx, hy] using h

/-- What is not below zero stands at zero or higher, NaN too. -/
theorem place_nonneg (h : x.lt (zero .plus) = false) : 0 ≤ x.place := by
  have hzero : (zero .plus).position? = some 0 := rfl
  unfold lt at h
  unfold place
  rw [hzero] at h
  cases hx : x.position? with
  | none => exact le_rfl
  | some p => simpa [hx] using h

/-! ## What a value counts for -/

/-- The number of units that a value counts for as a factor. An infinity counts for so many that its
least multiple overflows, and NaN for none. -/
def factor : Binary64 → ℤ
  | nan => 0
  | infinite s => s.apply (overflowUnits * unitsPerOne)
  | finite s m => s.apply m.units

theorem factor_eq (x : Binary64) :
    x.factor = if x.place.natAbs < overflowUnits then x.place else x.place * unitsPerOne := by
  cases x with
  | nan => exact (if_pos overflowUnits_pos).symm
  | infinite s =>
    have hplace : (infinite s).place = s.apply overflowUnits := rfl
    have happly := Sign.apply_times s .plus overflowUnits unitsPerOne
    rw [hplace, Sign.natAbs_apply, if_neg (lt_irrefl _)]
    cases s <;> exact happly
  | finite s m => exact (if_pos (natAbs_place_lt rfl)).symm

/-- What stands higher counts for more. -/
theorem factor_mono (h : x.place ≤ y.place) : x.factor ≤ y.factor := by
  have hone : (1 : ℤ) ≤ unitsPerOne := by exact_mod_cast unitsPerOne_pos
  rw [factor_eq, factor_eq]
  split_ifs with hx hy hy
  · exact h
  · exact h.trans (le_mul_of_one_le_right (by omega) hone)
  · exact (mul_le_of_one_le_right (by omega) hone).trans h
  · exact mul_le_mul_of_nonneg_right h (by omega)

theorem factor_nonneg (h : 0 ≤ x.place) : 0 ≤ x.factor := factor_mono (x := zero .plus) h

/-! ## Products -/

theorem place_nan_mul (y : Binary64) :
    (nan * y).place = nearestUnits (nan.factor * y.factor) unitsPerOne := by
  have hnan : nan * y = nan := by cases y <;> rfl
  show _ = nearestUnits (0 * _) _
  rw [hnan, zero_mul, nearestUnits_zero]
  rfl

theorem place_infinite_mul (s : Sign) (y : Binary64) :
    (infinite s * y).place = nearestUnits ((infinite s).factor * y.factor) unitsPerOne := by
  have hU := unitsPerOne_pos
  cases y with
  | nan => rw [Binary64.mul_comm, place_nan_mul, Int.mul_comm]
  | infinite t =>
    have hlarge : overflowUnits * unitsPerOne ≤
        overflowUnits * unitsPerOne * (overflowUnits * unitsPerOne) :=
      Nat.le_mul_of_pos_right _ (Nat.mul_pos overflowUnits_pos hU)
    show (s.times t).apply overflowUnits = nearestUnits (s.apply _ * t.apply _) _
    rw [← Sign.apply_times, nearestUnits_of_overflow _ hU hlarge]
  | finite t n =>
    show (if n.units = 0 then nan else infinite (s.times t)).place =
        nearestUnits (s.apply _ * t.apply n.units) _
    rw [← Sign.apply_times]
    split
    next hzero =>
      rw [hzero, Nat.mul_zero]
      cases s.times t <;> exact (nearestUnits_zero _).symm
    next hne =>
      rw [nearestUnits_of_overflow _ hU (Nat.le_mul_of_pos_right _ (Nat.pos_of_ne_zero hne))]
      rfl

/-- **Where a product stands**, of any two values. -/
theorem place_mul (x y : Binary64) :
    (x * y).place = nearestUnits (x.factor * y.factor) unitsPerOne := by
  cases x with
  | nan => exact place_nan_mul y
  | infinite s => exact place_infinite_mul s y
  | finite s m =>
    cases y with
    | nan => rw [Binary64.mul_comm, place_nan_mul, Int.mul_comm]
    | infinite t => rw [Binary64.mul_comm, place_infinite_mul, Int.mul_comm]
    | finite t n => exact place_eq (position?_mul rfl rfl)

/-- Multiplying by something from zero upwards keeps the order. -/
theorem place_mul_mono (hx : 0 ≤ x.place) (h : y.place ≤ z.place) :
    (x * y).place ≤ (x * z).place := by
  have hproducts := mul_le_mul_of_nonneg_left (factor_mono h) (factor_nonneg hx)
  rw [place_mul, place_mul]
  exact nearestUnits_mono unitsPerOne_pos unitsPerOne_pos
    (mul_le_mul_of_nonneg_right hproducts (Int.natCast_nonneg _))

theorem place_mul_nonpos (hx : 0 ≤ x.place) (hy : y.place ≤ 0) : (x * y).place ≤ 0 := by
  have hle := place_mul_mono hx (z := zero .plus) hy
  have hzero : (x * zero .plus).place = 0 := by
    rw [place_mul]
    show nearestUnits (_ * 0) _ = 0
    rw [mul_zero, nearestUnits_zero]
  exact hle.trans_eq hzero

/-! ## Quotients -/

/-- **Where a quotient stands**, of any value by a positive number of units. -/
theorem place_div {d : Nat} (x : Binary64) (hy : y.signed = some (d : ℤ)) (hd : 0 < d) :
    (x / y).place = nearestUnits (x.factor * unitsPerOne) d := by
  cases x with
  | nan =>
    have hnan : nan / y = nan := by cases y <;> rfl
    rw [hnan]
    show (0 : ℤ) = nearestUnits (0 * _) _
    rw [zero_mul, nearestUnits_zero]
  | infinite s =>
    obtain ⟨t, n, rfl, hn⟩ := signed_eq_some hy
    have hsmall : d ≤ unitsPerOne * unitsPerOne := by
      have hlt := natAbs_lt_of_signed hy
      rw [Int.natAbs_natCast] at hlt
      exact hlt.le.trans overflowUnits_le
    have hlarge : overflowUnits * d ≤ overflowUnits * unitsPerOne * unitsPerOne := by
      rw [Nat.mul_assoc]
      exact Nat.mul_le_mul_left _ hsmall
    cases t with
    | plus =>
      show (s.times .plus).apply overflowUnits =
          nearestUnits (s.apply _ * Sign.plus.apply unitsPerOne) _
      rw [← Sign.apply_times, nearestUnits_of_overflow _ hd hlarge]
    | minus => simp only [Sign.apply] at hn; omega
  | finite s m => exact place_eq (position?_div rfl hy hd)

/-- Dividing by something above zero keeps the order. -/
theorem place_div_mono_of_pos {d : Nat} (hz : z.signed = some (d : ℤ)) (hd : 0 < d)
    (h : x.place ≤ y.place) :
    (x / z).place ≤ (y / z).place := by
  have hproducts := mul_le_mul_of_nonneg_right (factor_mono h) (Int.natCast_nonneg unitsPerOne)
  rw [place_div x hz hd, place_div y hz hd]
  exact nearestUnits_mono hd hd (mul_le_mul_of_nonneg_right hproducts (Int.natCast_nonneg _))

end Binary64
end Beamline
