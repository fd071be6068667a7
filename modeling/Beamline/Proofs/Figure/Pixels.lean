import Beamline.Figure.Style
import Beamline.Proofs.Binary64.Factor
import Beamline.Proofs.Figure.Axis

/-!
# Pixels — sizes that count

A number of pixels comes of a product in three steps: it is rounded to a whole number, raised to
one, and cut off at the largest count. Each step asks only where its argument stands, and NaN may be
taken to stand at zero, as it ends at one pixel like everything that is not above zero. So a number
of pixels is a function of one place (`pixels_eq`), and what is wanted of it is read off there: its
bounds, its distance from the product, and that it grows with the place.

Where the product stands grows with the resolution, and with the size if the resolution is not below
zero. If it is below, no product with a size is above zero, and there is one pixel before and after
(`pixels_mono_inches`).
-/

set_option autoImplicit false

namespace Beamline

open Binary64

/-! ## Whole numbers -/

/-- The count nearest to a place, halves going up; nothing for what is below. It is written with one
division of integers, so that it is monotone because division is. -/
def nearestCount (p : ℤ) : Nat := ((2 * p + unitsPerOne) / (2 * unitsPerOne)).toNat

theorem two_unitsPerOne_pos : (0 : ℤ) < 2 * unitsPerOne := by
  have := unitsPerOne_pos
  omega

theorem nearestCount_mono {p q : ℤ} (h : p ≤ q) : nearestCount p ≤ nearestCount q :=
  Int.toNat_le_toNat (Int.ediv_le_ediv two_unitsPerOne_pos (by omega))

theorem nearestCount_of_nonpos {p : ℤ} (h : p ≤ 0) : nearestCount p = 0 := by
  have hU := unitsPerOne_pos
  have hzero : nearestCount 0 = 0 := by
    unfold nearestCount
    rw [Int.ediv_eq_zero_of_lt (by omega) (by omega), Int.toNat_zero]
  exact Nat.le_zero.mp ((nearestCount_mono h).trans_eq hzero)

theorem nearestCount_natCast (n : Nat) :
    nearestCount n = (2 * n + unitsPerOne) / (2 * unitsPerOne) := by
  have hcast : (((2 * n + unitsPerOne) / (2 * unitsPerOne) : Nat) : ℤ) =
      (2 * n + unitsPerOne) / (2 * unitsPerOne) := by
    rw [Int.natCast_ediv, Nat.cast_add, Nat.cast_mul, Nat.cast_mul, Nat.cast_ofNat]
  unfold nearestCount
  rw [← hcast, Int.toNat_natCast]

theorem one_le_nearestCount {n : Nat} (h : unitsPerOne ≤ 2 * n) : 1 ≤ nearestCount n := by
  rw [nearestCount_natCast, Nat.le_div_iff_mul_le (Nat.mul_pos Nat.two_pos unitsPerOne_pos)]
  omega

theorem nearestCount_le {n limit : Nat} (h : 2 * n + unitsPerOne ≤ limit * (2 * unitsPerOne)) :
    nearestCount n ≤ limit := by
  rw [nearestCount_natCast]
  exact Nat.div_le_of_le_mul (h.trans_eq (Nat.mul_comm _ _))

/-- The nearest count is no further than half a unit away. Both halves are the two bounds of an
integer division. -/
theorem abs_nearestCount_sub_le (n : Nat) : |(nearestCount n : ℚ) - n / unitsPerOne| ≤ 1 / 2 := by
  have hU := unitsPerOne_cast_pos
  have hbelow : ((2 * n + unitsPerOne) / (2 * unitsPerOne) * (2 * unitsPerOne) : ℕ) ≤
      (2 * n + unitsPerOne : ℚ) := by
    exact_mod_cast Nat.div_mul_le_self _ _
  have habove : (2 * n + unitsPerOne : ℚ) <
      ((2 * n + unitsPerOne) / (2 * unitsPerOne) * (2 * unitsPerOne) + 2 * unitsPerOne : ℕ) := by
    exact_mod_cast Nat.lt_div_mul_add (Nat.mul_pos Nat.two_pos unitsPerOne_pos)
  rw [nearestCount_natCast]
  generalize (2 * n + unitsPerOne) / (2 * unitsPerOne) = k at hbelow habove ⊢
  push_cast at hbelow habove
  have hscaled : (k : ℚ) - n / unitsPerOne = (k * unitsPerOne - n) / unitsPerOne := by
    rw [sub_div, mul_div_cancel_right₀ _ hU.ne']
  rw [hscaled, abs_div, abs_of_pos hU, div_le_iff₀ hU, abs_le]
  constructor <;> linarith

namespace Binary64

variable {x y : Binary64}

/-- A limit that is a value itself stays short of the whole parts that values can have. -/
theorem le_wholeParts {limit : Nat} (h : limit ≤ 2 ^ 53) : limit ≤ 2 ^ (overflowBits - oneBits) :=
  h.trans (Nat.pow_le_pow_right Nat.two_pos (by decide))

/-- A count comes back from the value nearest to it, up to a limit that is a value itself. Beyond 53
bits a count is rounded on becoming a value, but by then it is past the limit. -/
theorem truncate_natCast {limit : Nat} (h : limit ≤ 2 ^ 53) (n : Nat) :
    truncate limit (n : Binary64) = min n limit := by
  have hU : (0 : ℤ) < unitsPerOne := by exact_mod_cast unitsPerOne_pos
  have hdiv : ∀ k : Nat, (((k * unitsPerOne : Nat) : ℤ) / unitsPerOne).toNat = k := by
    intro k
    rw [Nat.cast_mul, Int.mul_ediv_cancel _ hU.ne', Int.toNat_natCast]
  rw [truncate_eq (le_wholeParts h)]
  rcases Nat.le_total n (2 ^ 53) with hn | hn
  · rw [place_eq (position?_of_signed (signed_natCast hn)), hdiv]
  -- Beyond the exact counts the rounding can only be compared, and the limit is on the safe side.
  · have hself := nearestUnits_position (position?_of_signed (signed_natCast h))
    have hle : ((limit * unitsPerOne : Nat) : ℤ) ≤ (n : Binary64).place := by
      rw [place_eq (position?_natCast n), ← hself]
      refine nearestUnits_one_mono ?_
      exact_mod_cast Nat.mul_le_mul_right unitsPerOne (h.trans hn)
    have hcount := Int.toNat_le_toNat (Int.ediv_le_ediv hU hle)
    rw [hdiv] at hcount
    rw [min_eq_right hcount, min_eq_right (h.trans hn)]

/-- Rounding to a whole number and taking it as a count is one step from where a value stands. The
kinds of values and their signs are told apart here, so that later only places are compared. -/
theorem truncate_roundHalfAway {limit : Nat} (h : limit ≤ 2 ^ 53) (x : Binary64) :
    x.roundHalfAway.truncate limit = min (nearestCount x.place) limit := by
  have hnothing : ∀ {p : ℤ}, p ≤ 0 → 0 = min (nearestCount p) limit := by
    intro p hp
    rw [nearestCount_of_nonpos hp, Nat.zero_min]
  cases x with
  | nan => exact hnothing le_rfl
  | infinite s =>
    cases s with
    | minus => exact hnothing (Int.neg_nonpos_of_nonneg (Int.natCast_nonneg overflowUnits))
    | plus =>
      have hlarge : limit ≤ nearestCount overflowUnits := by
        have hlimit := mul_unitsPerOne_lt h (by decide)
        rw [nearestCount_natCast, Nat.le_div_iff_mul_le (Nat.mul_pos Nat.two_pos unitsPerOne_pos),
          Nat.mul_left_comm]
        omega
      exact (min_eq_right hlarge).symm
  | finite s m =>
    cases s with
    | minus =>
      have hzero : ∀ n : Nat, truncate limit (round .minus n 1) = 0 := by
        intro n
        unfold round
        split <;> rfl
      exact (hzero _).trans (hnothing (Int.neg_nonpos_of_nonneg (Int.natCast_nonneg m.units)))
    | plus =>
      have hplace : (finite .plus m).place = m.units := rfl
      rw [hplace, nearestCount_natCast, ← truncate_natCast h, natCast_eq]
      rfl

/-- The larger of two values stands where the higher one does. NaN, which is passed over, is not the
higher one. -/
theorem place_max {q : ℤ} (hy : y.position? = some q) (hq : 0 ≤ q) :
    (x.max y).place = x.place ⊔ q := by
  have hnumber := isNaN_eq_false_iff.mpr ⟨q, hy⟩
  unfold Binary64.max
  rw [hnumber, Bool.false_or]
  cases hx : x.position? with
  | none =>
    have hplace : x.place = 0 := by unfold place; rw [hx]; rfl
    have hlt : y.lt x = false := by unfold lt; rw [hx, hy]
    rw [hlt, if_neg Bool.false_ne_true, place_eq hy, hplace, max_eq_right hq]
  | some p =>
    rw [place_eq hx]
    by_cases hlt : q < p
    · rw [if_pos ((lt_iff hy hx).mpr hlt), place_eq hx, max_eq_left hlt.le]
    · rw [if_neg (mt (lt_iff hy hx).mp hlt), place_eq hy, max_eq_right (not_lt.mp hlt)]

end Binary64

/-! ## From a product to pixels -/

namespace Style

theorem maxPixels_le : maxPixels ≤ 2 ^ 53 := by
  decide

/-- Raising a value to one raises its count to one. The maximum passes over NaN, and so does the
count, for which NaN is nothing. -/
theorem truncate_max_one (x : Binary64) :
    (x.max 1.0).truncate maxPixels = max 1 (x.truncate maxPixels) := by
  have hU : (0 : ℤ) < unitsPerOne := by exact_mod_cast unitsPerOne_pos
  have hcount : Monotone fun p : ℤ => (p / unitsPerOne).toNat := fun _ _ h =>
    Int.toNat_le_toNat (Int.ediv_le_ediv hU h)
  have hone : (unitsPerOne / unitsPerOne : ℤ).toNat = 1 := by
    rw [Int.ediv_self hU.ne']
    rfl
  rw [truncate_eq (le_wholeParts maxPixels_le), truncate_eq (le_wholeParts maxPixels_le),
    place_max (position?_of_signed signed_one) hU.le]
  calc
    min ((x.place ⊔ unitsPerOne) / unitsPerOne).toNat maxPixels
        = min (max (x.place / unitsPerOne).toNat 1) maxPixels := by rw [hcount.map_sup, hone]
    _ = max 1 (min (x.place / unitsPerOne).toNat maxPixels) := by
      rw [min_max_distrib_right, min_eq_left (by decide : 1 ≤ maxPixels), max_comm]

/-- **Pixels are counted from one place**, by one clamp of the nearest whole number. Every other
statement about pixels is read off this one. -/
theorem pixels_eq (dpi inches : Binary64) :
    pixels dpi inches = max 1 (min (nearestCount (inches * dpi).place) maxPixels) := by
  unfold pixels
  rw [truncate_max_one, truncate_roundHalfAway maxPixels_le]

section

variable {dpi dpi' inches inches' : Binary64}

theorem one_le_pixels (dpi inches : Binary64) : 1 ≤ pixels dpi inches := by
  rw [pixels_eq]
  exact le_max_left _ _

/-- The largest count is the largest that 32 bits hold. -/
theorem pixels_le (dpi inches : Binary64) : pixels dpi inches ≤ 2 ^ 32 - 1 := by
  rw [pixels_eq]
  exact max_le (by decide) (min_le_right _ maxPixels)

/-- What stands higher has no fewer pixels. -/
theorem pixels_mono (h : (inches * dpi).place ≤ (inches' * dpi').place) :
    pixels dpi inches ≤ pixels dpi' inches' := by
  rw [pixels_eq, pixels_eq]
  exact max_le_max_left 1 (min_le_min_right maxPixels (nearestCount_mono h))

theorem pixels_eq_one (h : (inches * dpi).place ≤ 0) : pixels dpi inches = 1 := by
  rw [pixels_eq, nearestCount_of_nonpos h]
  rfl

theorem pixels_mono_dpi (hinches : 0 ≤ inches.place) (h : dpi.place ≤ dpi'.place) :
    pixels dpi inches ≤ pixels dpi' inches :=
  pixels_mono (place_mul_mono hinches h)

/-- A larger size has no fewer pixels, also if the resolution is below zero, where it has one. -/
theorem pixels_mono_inches (hinches : 0 ≤ inches.place) (h : inches.place ≤ inches'.place) :
    pixels dpi inches ≤ pixels dpi inches' := by
  rcases le_total 0 dpi.place with hdpi | hdpi
  · refine pixels_mono ?_
    rw [Binary64.mul_comm inches, Binary64.mul_comm inches']
    exact place_mul_mono hdpi h
  · rw [pixels_eq_one (place_mul_nonpos hinches hdpi)]
    exact one_le_pixels dpi inches'

/-- **Within the counts, pixels are the nearest whole number to the product.** -/
theorem abs_pixels_sub_le (hlow : 1 / 2 ≤ (inches * dpi).toRat)
    (hhigh : (inches * dpi).toRat ≤ 2 ^ 32 - 3 / 2) :
    |(pixels dpi inches : ℚ) - (inches * dpi).toRat| ≤ 1 / 2 := by
  have hU : (0 : ℚ) < unitsPerOne := unitsPerOne_cast_pos
  have hpixels := pixels_eq dpi inches
  unfold toRat at hlow hhigh ⊢
  generalize (inches * dpi).place = p at hpixels hlow hhigh ⊢
  rw [div_le_div_iff₀ two_pos hU] at hlow
  rw [div_le_iff₀ hU] at hhigh
  lift p to ℕ using by
    have hpos : (0 : ℚ) < p := by linarith
    exact_mod_cast hpos.le
  have hleast : unitsPerOne ≤ 2 * p := by
    have hcast : (unitsPerOne : ℚ) ≤ 2 * p := by push_cast at hlow; linarith
    exact_mod_cast hcast
  have hgreatest : 2 * p + unitsPerOne ≤ maxPixels * (2 * unitsPerOne) := by
    have hmax : (maxPixels : ℚ) = 2 ^ 32 - 1 := by norm_num [maxPixels]
    have hcast : (2 * p + unitsPerOne : ℚ) ≤ maxPixels * (2 * unitsPerOne) := by
      rw [hmax]
      push_cast at hhigh
      linarith
    exact_mod_cast hcast
  have hwithin : pixels dpi inches = nearestCount p := by
    rw [hpixels, min_eq_left (nearestCount_le hgreatest), max_eq_right (one_le_nearestCount hleast)]
  rw [hwithin]
  exact abs_nearestCount_sub_le p

end

end Style
end Beamline
