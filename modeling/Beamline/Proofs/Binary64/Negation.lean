import Beamline.Proofs.Binary64.Overflow

/-!
# Negation — the same number with the other sign

A minus sign in front changes no digit, so it can be moved through a product or a rounding without a
trace (`neg_round`, `neg_mul`). Through a difference it cannot: equal values differ by a positive
zero, whichever of them is taken from the other. The two differences are then still the same number
(`sameNumber_sub_swap`), and being the same number is kept by everything that comes after
(`SameNumber.neg`, `SameNumber.mul`).

What does leave every digit and the sign alone is taking away a positive zero (`sub_zero_plus`).
-/

set_option autoImplicit false

namespace Beamline

theorem Sign.ofInt_apply_of_ne {s : Sign} {n : Nat} (h : s.apply n ≠ 0) :
    ofInt (s.apply n) = s := by
  cases s with
  | plus => exact if_neg (by simp only [apply]; omega)
  | minus => exact if_pos (by simp only [apply] at h ⊢; omega)

theorem Sign.flip_times (s t : Sign) : s.flip.times t = (s.times t).flip := by
  cases s <;> cases t <;> rfl

namespace Binary64

variable {x y : Binary64}

/-! ## Being the same number -/

/-- Both are NaN, or they are numerically equal; zeros of either sign are. -/
def SameNumber (x y : Binary64) : Prop := (x.isNaN = true ∧ y.isNaN = true) ∨ x.numEq y = true

theorem position?_eq_none_iff : x.position? = none ↔ x = nan := by
  cases x <;> simp [position?]

theorem isNaN_iff : x.isNaN = true ↔ x.position? = none := by
  cases x <;> simp [isNaN, position?]

/-- The same number is the same place, or no place for both. -/
theorem sameNumber_iff : x.SameNumber y ↔ x.position? = y.position? := by
  unfold SameNumber
  rw [isNaN_iff, isNaN_iff]
  constructor
  · rintro (⟨hx, hy⟩ | h)
    · rw [hx, hy]
    · cases hy : y.position? with
      | none => simp [numEq, hy] at h
      | some q => exact position?_of_numEq h hy
  · intro h
    cases hy : y.position? with
    | none => exact Or.inl ⟨h.trans hy, rfl⟩
    | some q => exact Or.inr ((numEq_iff (h.trans hy) hy).mpr rfl)

theorem position?_neg_eq (x : Binary64) : (-x).position? = x.position?.map (- ·) := by
  cases hx : x.position? with
  | none => rw [position?_eq_none_iff.mp hx]; rfl
  | some p => exact position?_neg hx

theorem SameNumber.neg (h : x.SameNumber y) : (-x).SameNumber (-y) := by
  rw [sameNumber_iff] at h ⊢
  rw [position?_neg_eq, position?_neg_eq, h]

/-- A product with a zero is a zero or NaN, whatever the sign of the zero. -/
theorem SameNumber.mul (h : x.SameNumber y) (z : Binary64) : (x * z).SameNumber (y * z) := by
  rw [sameNumber_iff] at h ⊢
  cases hy : y.position? with
  | none =>
    rw [position?_eq_none_iff.mp (h.trans hy), position?_eq_none_iff.mp hy]
  | some q =>
    by_cases hq : q = 0
    · subst hq
      obtain ⟨s, rfl⟩ := exists_zero (h.trans hy)
      obtain ⟨t, rfl⟩ := exists_zero hy
      cases z with
      | nan => rfl
      | infinite u => rfl
      | finite u n => rw [position?_mul (signed_zero s) rfl, position?_mul (signed_zero t) rfl]
    · rw [eq_of_position? (h.trans hy) hy hq]

/-! ## Moving the sign -/

theorem neg_round (s : Sign) (num den : Nat) : -round s num den = round s.flip num den := by
  unfold round
  split
  · rfl
  · rfl

protected theorem neg_mul (x y : Binary64) : -x * y = -(x * y) := by
  cases x with
  | nan => cases y <;> rfl
  | infinite s =>
    cases y with
    | nan => rfl
    | infinite t => exact congrArg infinite (Sign.flip_times s t)
    | finite t n =>
      show (if n.units = 0 then nan else infinite (s.flip.times t)) =
        -(if n.units = 0 then nan else infinite (s.times t))
      rw [Sign.flip_times]
      split <;> rfl
  | finite s m =>
    cases y with
    | nan => rfl
    | infinite t =>
      show (if m.units = 0 then nan else infinite (s.flip.times t)) =
        -(if m.units = 0 then nan else infinite (s.times t))
      rw [Sign.flip_times]
      split <;> rfl
    | finite t n =>
      rw [mul_finite, neg_round, ← Sign.flip_times, ← mul_finite]
      rfl

/-! ## Differences -/

theorem sameNumber_sub_swap (x y : Binary64) : (y - x).SameNumber (-(x - y)) := by
  rw [sameNumber_iff]
  cases x with
  | nan => cases y <;> rfl
  | infinite s =>
    cases y with
    | nan => rfl
    | infinite t => cases s <;> cases t <;> rfl
    | finite t n => rfl
  | finite s m =>
    cases y with
    | nan => rfl
    | infinite t => cases t <;> rfl
    | finite t n =>
      rw [position?_neg (position?_sub rfl rfl), position?_sub rfl rfl, ← nearestUnits_neg, neg_sub]

theorem sub_zero_plus (x : Binary64) : x - zero .plus = x := by
  cases x with
  | nan => rfl
  | infinite s => rfl
  | finite s m =>
    show addFinite s m .minus Magnitude.zero = finite s m
    have hzero : Sign.minus.apply Magnitude.zero.units = 0 := rfl
    unfold addFinite
    dsimp only
    rw [hzero, add_zero]
    split
    next h =>
      have hunits : m.units = 0 := by rw [← Sign.natAbs_apply s m.units, h, Int.natAbs_zero]
      obtain rfl : m = Magnitude.zero := Magnitude.ext_units hunits
      cases s <;> rfl
    next h => rw [Sign.ofInt_apply_of_ne h, Sign.natAbs_apply, round_units]

end Binary64
end Beamline
