import Beamline.Proofs.Binary64.Zero

/-!
# Overflow — results that may have left the finite values

What is said of finite values is said by their units, and a result that has overflowed has none. It
still stands somewhere, beyond all finite values, and that is enough for an order: comparisons are
of places, whichever kind of value stands there (`lt_iff`, `le_iff`, `numEq_iff`).

Two things are then left to know of a sum or a product with an infinity in it. It is not NaN, as
long as the other term is finite, and not a zero in a product. And it has gone to the side that its
sign says: a sum has not come below a term by adding something above zero (`exists_position?_add`),
and a product with a count is zero only if what is multiplied is
(`position?_mul_natCast_eq_zero_iff`).
-/

set_option autoImplicit false

namespace Beamline

theorem nearestUnits_eq_zero_iff {z : ℤ} : nearestUnits z 1 = 0 ↔ z = 0 := by
  have hone : nearestUnits 1 1 = 1 := by decide +kernel
  constructor
  · intro h
    rcases lt_trichotomy z 0 with hneg | hzero | hpos
    · have hle := nearestUnits_one_mono (by omega : 1 ≤ -z)
      rw [hone, nearestUnits_neg] at hle
      omega
    · exact hzero
    · have hle := nearestUnits_one_mono (by omega : 1 ≤ z)
      rw [hone] at hle
      omega
  · rintro rfl
    exact nearestUnits_zero 1

namespace Binary64

variable {x y z : Binary64} {p q : ℤ}

theorem position?_infinite_ne_zero (s : Sign) : (infinite s).position? ≠ some 0 := by
  intro h
  obtain ⟨t, ht⟩ := exists_zero h
  cases ht

/-! ## Comparing -/

theorem isNaN_eq_false_iff : x.isNaN = false ↔ ∃ p, x.position? = some p := by
  cases x <;> simp [isNaN, position?]

section

variable (hx : x.position? = some p) (hy : y.position? = some q)

include hx hy

theorem lt_iff : x.lt y = true ↔ p < q := by
  simp [lt, hx, hy]

theorem le_iff : x.le y = true ↔ p ≤ q := by
  simp [le, hx, hy]

theorem numEq_iff : x.numEq y = true ↔ p = q := by
  simp [numEq, hx, hy]

end

theorem position?_of_numEq (h : x.numEq y = true) (hy : y.position? = some q) :
    x.position? = some q := by
  unfold numEq at h
  rw [hy] at h
  cases hx : x.position? with
  | none =>
    rw [hx] at h
    cases h
  | some p =>
    rw [hx] at h
    exact congrArg some (of_decide_eq_true h)

theorem numEq_zero_iff (s : Sign) : x.numEq (zero s) = true ↔ x.position? = some 0 := by
  have hzero : (zero s).position? = some 0 := by cases s <;> rfl
  exact ⟨fun h => position?_of_numEq h hzero, fun h => (numEq_iff h hzero).mpr rfl⟩

/-! ## Sums -/

theorem position?_neg (h : x.position? = some p) : (-x).position? = some (-p) := by
  cases x with
  | nan => cases h
  | infinite s =>
    cases h
    exact congrArg some (s.apply_flip overflowUnits)
  | finite s m =>
    cases h
    exact congrArg some (s.apply_flip m.units)

/-- A finite value does not go down by adding something from zero upwards, nor up by something from
zero downwards. -/
theorem exists_position?_add (hx : x.isFinite = true) (hz : z.position? = some q) :
    ∃ p, (x + z).position? = some p ∧ (0 ≤ q → x.place ≤ p) ∧ (q ≤ 0 → p ≤ x.place) := by
  have hself := nearestUnits_position (position?_place hx)
  have hbound := natAbs_place_lt hx
  cases x with
  | nan => cases hx
  | infinite s => cases hx
  | finite s m =>
    cases z with
    | nan => cases hz
    | infinite t =>
      cases hz
      have hpos := overflowUnits_pos
      refine ⟨t.apply overflowUnits, rfl, fun h => ?_, fun h => ?_⟩
      all_goals cases t <;> simp only [Sign.apply] at h ⊢ <;> omega
    | finite t n =>
      have hsum := position?_add (signed_place hx) (signed_of_position? hz (by
        cases hz
        rw [Sign.natAbs_apply]
        exact n.bounded))
      refine ⟨_, hsum, fun h => ?_, fun h => ?_⟩
      · exact hself.symm.trans_le (nearestUnits_one_mono (by omega))
      · exact (nearestUnits_one_mono (by omega)).trans_eq hself

theorem exists_position?_sub (hx : x.isFinite = true) (hz : z.position? = some q) (hq : 0 ≤ q) :
    ∃ p, (x - z).position? = some p ∧ p ≤ x.place := by
  obtain ⟨p, hp, -, hle⟩ := exists_position?_add hx (position?_neg hz)
  exact ⟨p, hp, hle (by omega)⟩

/-- Where a sum stands does not depend on the sign of a zero. -/
theorem position?_add_congr (hx : x.position? = some p) (hy : y.position? = some p) (z : Binary64) :
    (x + z).position? = (y + z).position? := by
  by_cases hp : p = 0
  · subst hp
    obtain ⟨s, rfl⟩ := exists_zero hx
    obtain ⟨t, rfl⟩ := exists_zero hy
    cases z with
    | nan => rfl
    | infinite u => rfl
    | finite u n => rw [position?_add (signed_zero s) rfl, position?_add (signed_zero t) rfl]
  · rw [eq_of_position? hx hy hp]

/-! ## Products -/

protected theorem mul_comm (x y : Binary64) : x * y = y * x := by
  have htimes : ∀ s t : Sign, s.times t = t.times s := by
    intro s t
    cases s <;> cases t <;> rfl
  cases x with
  | nan => cases y <;> rfl
  | infinite s =>
    cases y with
    | nan => rfl
    | infinite t => exact congrArg infinite (htimes s t)
    | finite t n =>
      show (if n.units = 0 then nan else infinite (s.times t)) =
          if n.units = 0 then nan else infinite (t.times s)
      rw [htimes]
  | finite s m =>
    cases y with
    | nan => rfl
    | infinite t =>
      show (if m.units = 0 then nan else infinite (s.times t)) =
          if m.units = 0 then nan else infinite (t.times s)
      rw [htimes]
    | finite t n => rw [mul_finite, mul_finite, htimes, Nat.mul_comm]

theorem infinite_mul (s : Sign) (hy : y.signed = some q) (hq : q ≠ 0) :
    ∃ t, infinite s * y = infinite t ∧ (0 < q → t = s) := by
  obtain ⟨t, n, rfl, rfl⟩ := signed_eq_some hy
  have hn : n.units ≠ 0 := by
    intro h
    rw [h] at hq
    cases t <;> exact hq rfl
  refine ⟨s.times t, if_neg hn, fun hpos => ?_⟩
  cases t with
  | plus => cases s <;> rfl
  | minus => simp only [Sign.apply] at hpos; omega

/-- A multiple of something from zero upwards is so too. -/
theorem exists_position?_mul (hy : y.signed = some q) (hq : 0 < q) (hx : x.position? = some p)
    (hp : 0 ≤ p) :
    ∃ r, (x * y).position? = some r ∧ 0 ≤ r := by
  cases x with
  | nan => cases hx
  | infinite s =>
    obtain ⟨t, ht, hsign⟩ := infinite_mul s hy hq.ne'
    obtain rfl := hsign hq
    cases hx
    exact ⟨t.apply overflowUnits, by rw [ht]; rfl, hp⟩
  | finite s m =>
    cases hx
    exact ⟨_, position?_mul rfl hy, nearestUnits_nonneg (Int.mul_nonneg hp hq.le) _⟩

theorem position?_mul_natCast_eq_zero_iff {n : Nat} (hpos : 0 < n) (hn : n ≤ 2 ^ 53) :
    (x * (n : Binary64)).position? = some 0 ↔ x.position? = some 0 := by
  have hunits : n * unitsPerOne ≠ 0 := (Nat.mul_pos hpos unitsPerOne_pos).ne'
  cases x with
  | nan => rfl
  | infinite s =>
    obtain ⟨t, ht, -⟩ := infinite_mul s (signed_natCast hn) (by exact_mod_cast hunits)
    rw [ht]
    exact iff_of_false (position?_infinite_ne_zero t) (position?_infinite_ne_zero s)
  | finite s m =>
    rw [position?_mul_natCast rfl hn, Option.some_inj, nearestUnits_eq_zero_iff,
      position?_place rfl, Option.some_inj, mul_eq_zero, or_iff_left]
    exact_mod_cast hpos.ne'

end Binary64
end Beamline
