import Beamline.Proofs.Binary64.Order

/-!
# Zero — two values in one place

Only zero has two values in one place (`eq_of_position?`), so wherever the order leaves a choice
between equal values, it is the sign of a zero that is left open. This is how far such a sign goes.
A sum swallows it, unless the other term is a negative zero (`add_congr_left`); a difference of
values in different places never had it (`sub_of_ne`).

So it is enough to know that the other term is no negative zero, and mostly because it has no minus
sign at all (`IsPlus`). Products, quotients and counts do not bring one in; a difference of two
values in order does not either, unless both are zeros.
-/

set_option autoImplicit false

namespace Beamline

theorem Sign.apply_inj {s t : Sign} {m n : Nat} (h : s.apply m = t.apply n) (hm : m ≠ 0) :
    s = t ∧ m = n := by
  cases s <;> cases t <;> simp only [apply, reduceCtorEq, true_and, false_and] at h ⊢ <;> omega

namespace Binary64

variable {x y z : Binary64} {p q : ℤ}

/-! ## One place, one value -/

/-- What stands at zero is a zero of one sign or the other. Infinities stand far from it, and NaN
stands nowhere. -/
theorem exists_zero (hx : x.position? = some 0) : ∃ s, x = zero s := by
  cases x with
  | nan => cases hx
  | infinite s =>
    have hpos := overflowUnits_pos
    have happly := congrArg Int.natAbs (Option.some.inj hx)
    rw [Sign.natAbs_apply] at happly
    exact absurd happly hpos.ne'
  | finite s m =>
    have happly := congrArg Int.natAbs (Option.some.inj hx)
    rw [Sign.natAbs_apply] at happly
    exact ⟨s, congrArg _ (Magnitude.ext_units happly)⟩

theorem signed_zero (s : Sign) : (zero s).signed = some 0 := by
  cases s <;> rfl

/-- Away from zero a place belongs to one value, so equal places are equal bits. The extremes of a
list are known by their places only, and by this they are known by their bits too unless they are
zeros. -/
theorem eq_of_position? (hx : x.position? = some p) (hy : y.position? = some p) (hp : p ≠ 0) :
    x = y := by
  cases x with
  | nan => cases hx
  | infinite s =>
    cases hx
    cases y with
    | nan => cases hy
    | infinite t => rw [(Sign.apply_inj (Option.some.inj hy) overflowUnits_pos.ne').1]
    | finite t n =>
      have happly := congrArg Int.natAbs (Option.some.inj hy)
      rw [Sign.natAbs_apply, Sign.natAbs_apply] at happly
      exact absurd happly n.bounded.ne
  | finite s m =>
    cases hx
    have hm : m.units ≠ 0 := by
      intro h
      rw [h] at hp
      cases s <;> exact hp rfl
    cases y with
    | nan => cases hy
    | infinite t =>
      have happly := congrArg Int.natAbs (Option.some.inj hy)
      rw [Sign.natAbs_apply, Sign.natAbs_apply] at happly
      exact absurd happly m.bounded.ne'
    | finite t n =>
      obtain ⟨hsign, hunits⟩ := Sign.apply_inj (Option.some.inj hy).symm hm
      rw [hsign, Magnitude.ext_units hunits]

/-! ## Sums and differences -/

/-- Two zeros add to a negative one only if both are negative, so beside anything but a negative
zero it does not matter which zero is added. -/
theorem zero_add_congr (s t : Sign) (hz : z ≠ zero .minus) : zero s + z = zero t + z := by
  cases z with
  | nan => rfl
  | infinite u => rfl
  | finite u n =>
    show addFinite s Magnitude.zero u n = addFinite t Magnitude.zero u n
    by_cases hn : n.units = 0
    -- The other term is the positive zero, and the sum of two zeros is negative only if both are.
    · obtain rfl : n = Magnitude.zero := Magnitude.ext_units hn
      cases u with
      | plus => cases s <;> cases t <;> rfl
      | minus => exact absurd rfl hz
    · have hsum : ∀ v : Sign, v.apply Magnitude.zero.units + u.apply n.units = u.apply n.units := by
        intro v
        cases v <;> simp [Sign.apply, Magnitude.zero]
      have hne : u.apply n.units ≠ 0 := by cases u <;> simpa [Sign.apply] using hn
      unfold addFinite
      dsimp only
      rw [hsum, hsum, if_neg hne, if_neg hne]

/-- A sum does not depend on the sign of a zero, unless the other term is a negative zero. The edges
of a histogram are sums of this kind: the lower bound may be either zero, depending on the order of
the values, and what is added to it has no minus sign. -/
theorem add_congr_left (hx : x.position? = some p) (hy : y.position? = some p)
    (hz : z ≠ zero .minus) :
    x + z = y + z := by
  by_cases hp : p = 0
  · subst hp
    obtain ⟨s, rfl⟩ := exists_zero hx
    obtain ⟨t, rfl⟩ := exists_zero hy
    exact zero_add_congr s t hz
  · rw [eq_of_position? hx hy hp]

/-- The difference of values in different places comes of the places alone. It is rounded from a
number that is not zero, so there is no sign of a zero to choose. -/
theorem sub_of_ne (hx : x.signed = some p) (hy : y.signed = some q) (hne : p ≠ q) :
    x - y = round (Sign.ofInt (p - q)) (p - q).natAbs 1 := by
  obtain ⟨s, m, rfl, rfl⟩ := signed_eq_some hx
  obtain ⟨t, n, rfl, rfl⟩ := signed_eq_some hy
  show addFinite s m t.flip n = _
  unfold addFinite
  dsimp only
  rw [Sign.apply_flip, ← sub_eq_add_neg, if_neg (sub_ne_zero.mpr hne)]

/-! ## Values without a minus sign -/

/-- NaN, or a value with a plus sign. NaN is let in because products and quotients of such values
may be NaN, and a sum with NaN is NaN whatever the other term. -/
inductive IsPlus : Binary64 → Prop
  | nan : IsPlus nan
  | infinite : IsPlus (infinite .plus)
  | finite (m : Magnitude) : IsPlus (finite .plus m)

theorem IsPlus.ne_zero_minus (h : x.IsPlus) : x ≠ zero .minus := by
  rintro rfl
  cases h

theorem IsPlus.position?_nonneg (h : x.IsPlus) (hx : x.position? = some p) : 0 ≤ p := by
  cases h with
  | nan => cases hx
  | infinite =>
    cases hx
    exact Int.natCast_nonneg _
  | finite m =>
    cases hx
    exact Int.natCast_nonneg _

theorem IsPlus.place_nonneg (h : x.IsPlus) : 0 ≤ x.place := by
  cases h with
  | nan => exact le_rfl
  | infinite => exact Int.natCast_nonneg _
  | finite m => exact Int.natCast_nonneg _

/-- What stands above zero has no minus sign. At zero itself that would be wrong, which is why the
sign is a matter of its own here. -/
theorem isPlus_of_pos (hx : x.position? = some p) (hp : 0 < p) : x.IsPlus := by
  have hminus : ∀ n, ¬ 0 < Sign.minus.apply n := fun n =>
    not_lt.mpr (neg_nonpos.mpr (Int.natCast_nonneg n))
  cases x with
  | nan => exact .nan
  | infinite s =>
    cases hx
    cases s with
    | plus => exact .infinite
    | minus => exact absurd hp (hminus _)
  | finite s m =>
    cases hx
    cases s with
    | plus => exact .finite m
    | minus => exact absurd hp (hminus _)

theorem isPlus_round (num den : Nat) : (round .plus num den).IsPlus := by
  unfold round
  split
  · exact .finite _
  · exact .infinite

theorem isPlus_natCast (n : Nat) : (n : Binary64).IsPlus := by
  rw [natCast_eq]
  exact isPlus_round _ _

theorem IsPlus.mul (hx : x.IsPlus) (hy : y.IsPlus) : (x * y).IsPlus := by
  have hvanish : ∀ n : Nat, (if n = 0 then Binary64.nan else .infinite .plus).IsPlus := by
    intro n
    split
    · exact .nan
    · exact .infinite
  cases hx with
  | nan => exact .nan
  | infinite =>
    cases hy with
    | nan => exact .nan
    | infinite => exact .infinite
    | finite n => exact hvanish n.units
  | finite m =>
    cases hy with
    | nan => exact .nan
    | infinite => exact hvanish m.units
    | finite n =>
      rw [mul_finite]
      exact isPlus_round _ _

theorem IsPlus.div (hx : x.IsPlus) (hy : y.IsPlus) : (x / y).IsPlus := by
  cases hx with
  | nan => exact .nan
  | infinite =>
    cases hy with
    | nan => exact .nan
    | infinite => exact .nan
    | finite n => exact .infinite
  | finite m =>
    cases hy with
    | nan => exact .nan
    | infinite => exact .finite _
    | finite n =>
      by_cases hn : n.units = 0
      · have hdiv : Binary64.finite .plus m / Binary64.finite .plus n =
            if m.units = 0 then Binary64.nan else Binary64.infinite .plus := if_pos hn
        rw [hdiv]
        split
        · exact .nan
        · exact .infinite
      · rw [div_finite _ _ _ hn]
        exact isPlus_round _ _

/-- A difference of values in order has no minus sign, unless both of them are zeros. The width of a
range is one, and where both ends are zeros the range has been widened before. -/
theorem isPlus_sub (hx : x.signed = some p) (hy : y.signed = some q) (hle : q ≤ p)
    (hzero : p ≠ 0 ∨ q ≠ 0) :
    (x - y).IsPlus := by
  by_cases hne : p = q
  · subst hne
    obtain rfl :=
      eq_of_position? (position?_of_signed hx) (position?_of_signed hy) (hzero.elim id id)
    obtain ⟨s, m, rfl, -⟩ := signed_eq_some hx
    show (addFinite s m s.flip m).IsPlus
    unfold addFinite
    dsimp only
    rw [Sign.apply_flip, add_neg_cancel, if_pos rfl]
    cases s <;> exact .finite _
  · rw [sub_of_ne hx hy hne, Sign.ofInt, if_neg (by omega)]
    exact isPlus_round _ _

end Binary64
end Beamline
