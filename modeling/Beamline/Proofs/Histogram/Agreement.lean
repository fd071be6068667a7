import Beamline.Proofs.Histogram.Edges

/-!
# Agreement — the bin a value is counted in, and the edges around it

The index of a value and the edges of its bin are different formulas, rounded in different places: a
difference and a quotient for the one, a multiple and a sum for the other. They need not agree, but
they cannot be far apart. Each of the four errors is a small part of the larger end of the range, or
less, and where the exact edge is on the right side of the value already, the rounded one is too,
because a value is not rounded past (`Regular.edge_le_of_le`). Eight roundoffs are enough for all of
them together.

The last bin is apart from the others, as its upper edge is not asked for. It is as far up as the
width, taken so many times, reaches, and the width itself may be off by half a unit
(`high_le_last`).

Of the four roundings the quotient is the harmless one. It is rounded up to a whole number only from
within a roundoff, and two different values are further apart than that (`mul_lt_of_place_lt`). So
where the others are exact, every value is between the edges of its bin (`Unrounded.agrees_zero`).
-/

set_option autoImplicit false

namespace Beamline

open Binary64

/-! ## The quotient of a value -/

namespace Binning

section

variable {b : Binning Binary64} {high v : Binary64}

/-- A value between the ends of the range. -/
structure InRange (b : Binning Binary64) (high v : Binary64) : Prop where
  finite : v.isFinite = true
  low_le : b.low.place ≤ v.place
  le_high : v.place ≤ high.place

theorem sub_low_nonneg (h : b.Divides high) (hv : b.InRange high v) : 0 ≤ (v - b.low).place := by
  rw [place_sub hv.finite h.low_finite]
  exact nearestUnits_nonneg (sub_nonneg.mpr hv.low_le) 1

theorem isFinite_sub_low (h : b.Divides high) (hv : b.InRange high v) :
    (v - b.low).isFinite = true := by
  have hposition := position?_sub_low h.low_finite hv.finite
  refine isFinite_of_between (x := zero .plus) rfl h.difference hposition
    (nearestUnits_nonneg (sub_nonneg.mpr hv.low_le) 1) ?_
  rw [place_sub h.high_finite h.low_finite]
  exact nearestUnits_one_mono (Int.sub_le_sub_right hv.le_high _)

theorem abs_sub_low_sub_le (h : b.Divides high) (hv : b.InRange high v) :
    |((v - b.low).place : ℚ) - (v.place - b.low.place)| ≤ (v.place - b.low.place) * roundoff := by
  have hnonneg : (0 : ℚ) ≤ v.place - b.low.place := sub_nonneg.mpr (by exact_mod_cast hv.low_le)
  have herror := abs_place_sub_sub_le hv.finite h.low_finite (isFinite_sub_low h hv)
  rwa [abs_of_nonneg hnonneg] at herror

/-- Where the quotient stands, with its terms as natural numbers. -/
theorem place_quotient (h : b.Divides high) (hv : b.InRange high v) {d w : Nat}
    (hd : (v - b.low).place = d) (hw : b.width.place = w) (hpos : 0 < w) :
    ((v - b.low) / b.width).place = (min (roundUnits (d * unitsPerOne) w) overflowUnits : Nat) := by
  have hnum := signed_place (isFinite_sub_low h hv)
  have hden := signed_place h.width_finite
  rw [hd] at hnum
  rw [hw] at hden
  rw [place_eq (position?_div hnum hden hpos), ← Nat.cast_mul, nearestUnits_of_nonneg]

/-- The index does not pass the quotient, except by rounding. -/
theorem index_mul_width_le (h : b.Divides high) (hv : b.InRange high v) :
    (b.index v * b.width.place : ℚ) ≤ (v - b.low).place * (1 + roundoff) := by
  obtain ⟨d, hd⟩ := Int.eq_ofNat_of_zero_le (sub_low_nonneg h hv)
  obtain ⟨w, hw⟩ := Int.eq_ofNat_of_zero_le h.width_nonneg
  rw [hd, hw]
  rcases Nat.eq_zero_or_pos w with rfl | hpos
  · have : (0 : ℚ) ≤ d * (1 + roundoff) :=
      mul_nonneg (Nat.cast_nonneg _) (add_nonneg zero_le_one roundoff_nonneg)
    simpa using this
  · have hindex : b.index v ≤ roundUnits (d * unitsPerOne) w / unitsPerOne := by
      rw [index_eq_place, place_quotient h hv hd hw hpos, ← Int.natCast_ediv, Int.toNat_natCast]
      exact (min_le_left _ _).trans
        ((min_le_left _ _).trans (Nat.div_le_div_right (min_le_left _ _)))
    have hle : b.index v ≤ 2 ^ 53 := (index_lt h.bins_pos v).le.trans h.bins_le
    exact mul_le_of_le_roundUnits hpos hle ((Nat.le_div_iff_mul_le unitsPerOne_pos).mp hindex)

/-- Short of the last bin, the quotient does not reach the next whole number. -/
theorem sub_low_lt_mul_width (h : b.Divides high) (hv : b.InRange high v) (hpos : 0 < b.width.place)
    (hshort : b.index v + 1 < b.bins) :
    ((v - b.low).place : ℚ) < (b.index v + 1 : Nat) * b.width.place := by
  obtain ⟨d, hd⟩ := Int.eq_ofNat_of_zero_le (sub_low_nonneg h hv)
  obtain ⟨w, hw⟩ := Int.eq_ofNat_of_zero_le h.width_nonneg
  rw [hw] at hpos
  have hindex := index_eq_place b v
  rw [place_quotient h hv hd hw (by omega), ← Int.natCast_ediv, Int.toNat_natCast] at hindex
  have hmax : 2 ^ 53 ≤ maxCount := by decide
  have hcount : b.index v + 1 ≤ 2 ^ 53 := hshort.le.trans h.bins_le
  rw [hd, hw]
  by_contra hreach
  have hle : (b.index v + 1) * w ≤ d := by exact_mod_cast not_lt.mp hreach
  generalize b.index v = i at hindex hcount hshort hle
  have hround : (i + 1) * unitsPerOne ≤ roundUnits (d * unitsPerOne) w := by
    refine le_roundUnits (by omega) (spacing_dvd_mul_two_pow hcount) ?_
    calc
      (i + 1) * unitsPerOne * w = (i + 1) * w * unitsPerOne := Nat.mul_right_comm _ _ _
      _ ≤ d * unitsPerOne := Nat.mul_le_mul_right _ hle
  have hbounded : (i + 1) * unitsPerOne ≤ overflowUnits :=
    (mul_unitsPerOne_lt hcount (by decide)).le
  have hquotient := (Nat.le_div_iff_mul_le unitsPerOne_pos).mpr (le_min hround hbounded)
  generalize min (roundUnits (d * unitsPerOne) w) overflowUnits / unitsPerOne =
    q at hindex hquotient
  clear hround hbounded
  omega

/-- Without a width, only what is at the lower end is not in the last bin. -/
theorem sub_low_eq_zero (h : b.Divides high) (hv : b.InRange high v)
    (hwidth : b.width.place = 0) (hshort : b.index v + 1 < b.bins) : (v - b.low).place = 0 := by
  by_contra hne
  have hfinite := isFinite_sub_low h hv
  have hposition := position?_place hfinite
  have hpositive : (v - b.low).IsPlus :=
    isPlus_of_pos hposition (by have := sub_low_nonneg h hv; omega)
  have hquotient := div_eq_infinite hpositive hfinite hne h.width_plus h.width_finite hwidth
  have hindex : b.index v = min maxCount (b.bins - 1) := by
    show min (truncate maxCount ((v - b.low) / b.width)) (b.bins - 1) = _
    rw [hquotient]
    rfl
  have hmax : 2 ^ 53 ≤ maxCount := by decide
  have hbins := h.bins_le
  omega

end

/-! ## The edges around a value -/

section

variable {b : Binning Binary64} {x : Binary64} {i : Nat} {m d : ℚ}

theorem Regular.abs_edge_sub_le (h : b.Regular) (hi : i ≤ b.bins) :
    |((b.edge i).place : ℚ) - (b.low.place + (b.width * (i : Binary64)).place)| ≤
      |(b.low.place + (b.width * (i : Binary64)).place : ℚ)| * roundoff :=
  abs_place_add_sub_le h.low_finite (h.step_finite i hi) (h.edge_finite i hi)

/-- An edge is not rounded past a value. -/
theorem Regular.edge_le_of_le (h : b.Regular) (hi : i ≤ b.bins) (hx : x.isFinite = true)
    (hle : b.low.place + (b.width * (i : Binary64)).place ≤ x.place) :
    (b.edge i).place ≤ x.place := by
  have hmono := nearestUnits_one_mono hle
  rwa [nearestUnits_position (position?_place hx), ← h.place_edge hi] at hmono

theorem Regular.le_edge_of_le (h : b.Regular) (hi : i ≤ b.bins) (hx : x.isFinite = true)
    (hle : x.place ≤ b.low.place + (b.width * (i : Binary64)).place) :
    x.place ≤ (b.edge i).place := by
  have hmono := nearestUnits_one_mono hle
  rwa [nearestUnits_position (position?_place hx), ← h.place_edge hi] at hmono

/-- If a multiple of the width reaches too far by so much, its edge does by as much and a
roundoff. -/
theorem Regular.edge_le_add (h : b.Regular) (hi : i ≤ b.bins) (hx : x.isFinite = true)
    (hlow : |(b.low.place : ℚ)| ≤ m) (habove : |(x.place : ℚ)| ≤ m) (hd : 0 ≤ d)
    (hstep : ((b.width * (i : Binary64)).place : ℚ) ≤ x.place - b.low.place + d) :
    ((b.edge i).place : ℚ) ≤ x.place + (d + (m + d) * roundoff) := by
  have hm : 0 ≤ m := (abs_nonneg _).trans hlow
  have hround : 0 ≤ (m + d) * roundoff := mul_nonneg (add_nonneg hm hd) roundoff_nonneg
  rcases le_or_gt (b.low.place + (b.width * (i : Binary64)).place) x.place with hbelow | hpast
  · have hedge : ((b.edge i).place : ℚ) ≤ x.place := by exact_mod_cast h.edge_le_of_le hi hx hbelow
    linarith
  · have hpast' : (x.place : ℚ) < b.low.place + (b.width * (i : Binary64)).place := by
      exact_mod_cast hpast
    have hlow' := (abs_le.mp hlow).1
    have habove' := abs_le.mp habove
    have habs : |(b.low.place + (b.width * (i : Binary64)).place : ℚ)| ≤ m + d :=
      abs_le.mpr ⟨by linarith, by linarith⟩
    have hedge := (abs_le.mp (h.abs_edge_sub_le hi)).2
    have herror := mul_le_mul_of_nonneg_right habs roundoff_nonneg
    linarith

/-- If a multiple of the width falls short by so much, its edge does by as much and a roundoff. -/
theorem Regular.le_edge_add (h : b.Regular) (hi : i ≤ b.bins) (hx : x.isFinite = true)
    (hlow : |(b.low.place : ℚ)| ≤ m) (habove : |(x.place : ℚ)| ≤ m) (hd : 0 ≤ d)
    (hstep : (x.place - b.low.place : ℚ) ≤ (b.width * (i : Binary64)).place + d) :
    (x.place : ℚ) ≤ (b.edge i).place + (d + m * roundoff) := by
  have hm : 0 ≤ m := (abs_nonneg _).trans hlow
  have hround : 0 ≤ m * roundoff := mul_nonneg hm roundoff_nonneg
  rcases le_or_gt x.place (b.low.place + (b.width * (i : Binary64)).place) with hreached | hshort
  · have hedge : (x.place : ℚ) ≤ (b.edge i).place := by
      exact_mod_cast h.le_edge_of_le hi hx hreached
    linarith
  · have hshort' : (b.low.place + (b.width * (i : Binary64)).place : ℚ) < x.place := by
      exact_mod_cast hshort
    have hnonneg : (0 : ℚ) ≤ (b.width * (i : Binary64)).place := by exact_mod_cast h.step_nonneg i
    have hlow' := (abs_le.mp hlow).1
    have habove' := (abs_le.mp habove).2
    have habs : |(b.low.place + (b.width * (i : Binary64)).place : ℚ)| ≤ m :=
      abs_le.mpr ⟨by linarith, by linarith⟩
    have hedge := (abs_le.mp (h.abs_edge_sub_le hi)).1
    have herror := mul_le_mul_of_nonneg_right habs roundoff_nonneg
    linarith

end

section

variable {b : Binning Binary64} {high v : Binary64} {m : ℚ}

/-- A value in the range is no further from zero than the ends of it. -/
theorem InRange.abs_place_le (hv : b.InRange high v) (hlow : |(b.low.place : ℚ)| ≤ m)
    (hhigh : |(high.place : ℚ)| ≤ m) : |(v.place : ℚ)| ≤ m := by
  have hlow' := (abs_le.mp hlow).1
  have hhigh' := (abs_le.mp hhigh).2
  have hbelow : (b.low.place : ℚ) ≤ v.place := by exact_mod_cast hv.low_le
  have habove : (v.place : ℚ) ≤ high.place := by exact_mod_cast hv.le_high
  exact abs_le.mpr ⟨by linarith, by linarith⟩

variable (h : b.Divides high) (hv : b.InRange high v)

include h hv

/-- **The lower edge of its bin is not above a value**, or not by more than the errors of the
difference, the quotient, the multiple and the sum. -/
theorem edge_index_le (hlow : |(b.low.place : ℚ)| ≤ m) (hhigh : |(high.place : ℚ)| ≤ m) :
    ((b.edge (b.index v)).place : ℚ) ≤ v.place + m / 2 ^ 50 := by
  have hi := (index_lt h.bins_pos v).le
  have habs := hv.abs_place_le hlow hhigh
  have hm : 0 ≤ m := (abs_nonneg _).trans hlow
  have hlow' := (abs_le.mp hlow).1
  have habs' := (abs_le.mp habs).2
  have hdifference := (abs_le.mp (abs_sub_low_sub_le h hv)).2
  have hindex := index_mul_width_le h hv
  have hstep := (abs_le.mp (h.abs_step_sub_le hi)).2
  have hpast : ((b.width * (b.index v : Binary64)).place : ℚ) ≤
      v.place - b.low.place + 13 * m / 2 ^ 54 := by
    unfold roundoff at hdifference hindex hstep
    linarith
  have hedge := h.edge_le_add hi hv.finite hlow habs (by positivity) hpast
  unfold roundoff at hedge
  linarith

/-- **The upper edge of its bin is not below a value**, with the same exception. -/
theorem le_edge_index_succ (hlow : |(b.low.place : ℚ)| ≤ m) (hhigh : |(high.place : ℚ)| ≤ m)
    (hshort : b.index v + 1 < b.bins) :
    (v.place : ℚ) ≤ (b.edge (b.index v + 1)).place + m / 2 ^ 50 := by
  have habs := hv.abs_place_le hlow hhigh
  have hm : 0 ≤ m := (abs_nonneg _).trans hlow
  have hlow' := (abs_le.mp hlow).1
  have habs' := (abs_le.mp habs).2
  have hdifference := (abs_le.mp (abs_sub_low_sub_le h hv)).1
  have hreach : ((v - b.low).place : ℚ) ≤ (b.index v + 1 : Nat) * b.width.place := by
    rcases h.width_nonneg.eq_or_lt with hzero | hpos
    · rw [sub_low_eq_zero h hv hzero.symm hshort, ← hzero]
      simp
    · exact (sub_low_lt_mul_width h hv hpos hshort).le
  have hstep := (abs_le.mp (h.abs_step_sub_le hshort.le)).1
  have hmiss : (v.place - b.low.place : ℚ) ≤
      (b.width * ((b.index v + 1 : Nat) : Binary64)).place + 5 * m / 2 ^ 53 := by
    unfold roundoff at hdifference hstep
    linarith
  have hedge := h.le_edge_add hshort.le hv.finite hlow habs (by positivity) hmiss
  unfold roundoff at hedge
  linarith

omit hv in
/-- **The last edge is not below the range**, with the same exception and half a unit for each
bin. -/
theorem high_le_last (hlow : |(b.low.place : ℚ)| ≤ m) (hhigh : |(high.place : ℚ)| ≤ m) :
    (high.place : ℚ) ≤ (b.edge b.bins).place + (m / 2 ^ 50 + b.bins / 2) := by
  have hm : 0 ≤ m := (abs_nonneg _).trans hlow
  have hlow' := (abs_le.mp hlow).1
  have hhigh' := (abs_le.mp hhigh).2
  have hdifference := (abs_le.mp h.abs_difference_sub_le).1
  have hwidth := (abs_le.mp h.abs_width_sub_le).1
  have hstep := (abs_le.mp (h.abs_step_sub_le le_rfl)).1
  have hmiss : (high.place - b.low.place : ℚ) ≤
      (b.width * (b.bins : Binary64)).place + (6 * m / 2 ^ 53 + b.bins / 2) := by
    unfold roundoff at hdifference hwidth hstep
    linarith
  have hedge := h.le_edge_add le_rfl h.high_finite hlow hhigh (by positivity) hmiss
  unfold roundoff at hedge
  linarith

end

/-! ## Where only quotients are rounded -/

/-- Bins whose width, edges and distances to values are exact. -/
structure Unrounded (b : Binning Binary64) (high : Binary64) (values : List Binary64) : Prop where
  width_pos : 0 < b.width.place
  step : ∀ i ≤ b.bins, (b.width * (i : Binary64)).place = b.width.place * i
  edge : ∀ i ≤ b.bins, (b.edge i).place = b.low.place + b.width.place * i
  last : (b.edge b.bins).place = high.place
  distance : ∀ v ∈ values, v.isFinite = true → (v - b.low).place = v.place - b.low.place

section

variable {b : Binning Binary64} {high v : Binary64} {values : List Binary64}

/-- A value that is rounded up into a bin would be nearer to its edge than two values can be. -/
theorem Unrounded.edge_index_le (hexact : b.Unrounded high values) (h : b.Divides high)
    (hv : b.InRange high v) (hmem : v ∈ values) : (b.edge (b.index v)).place ≤ v.place := by
  have hi := (index_lt h.bins_pos v).le
  have hstep := hexact.step _ hi
  have hdistance := hexact.distance v hmem hv.finite
  rw [hexact.edge _ hi]
  by_contra hpast
  have hlt : (v - b.low).place < (b.width * (b.index v : Binary64)).place := by omega
  have hgap :=
    mul_lt_of_place_lt (isFinite_sub_low h hv) (h.step_finite _ hi) (sub_low_nonneg h hv) hlt
  have hindex := index_mul_width_le h hv
  rw [hstep, Int.cast_mul, Int.cast_natCast] at hgap
  linarith

theorem Unrounded.lt_edge_index_succ (hexact : b.Unrounded high values) (h : b.Divides high)
    (hv : b.InRange high v) (hmem : v ∈ values) (hshort : b.index v + 1 < b.bins) :
    v.place < (b.edge (b.index v + 1)).place := by
  have hdistance := hexact.distance v hmem hv.finite
  have hreach : (v - b.low).place < (b.index v + 1 : Nat) * b.width.place := by
    exact_mod_cast sub_low_lt_mul_width h hv hexact.width_pos hshort
  rw [hexact.edge _ hshort.le]
  rw [hdistance, mul_comm] at hreach
  omega

end

/-! ## Agreement -/

/-- What an edge can miss a value by: eight roundoffs of the larger end, and half a unit for each
bin. -/
def slack (b : Binning Binary64) (high : Binary64) : ℚ :=
  max |b.low.toRat| |high.toRat| / 2 ^ 50 + b.bins / (2 * unitsPerOne)

theorem slack_mul (b : Binning Binary64) (high : Binary64) :
    b.slack high * unitsPerOne =
      max |(b.low.place : ℚ)| |(high.place : ℚ)| / 2 ^ 50 + b.bins / 2 := by
  have hunit := unitsPerOne_cast_pos
  have habs : ∀ x : Binary64, |x.toRat| = |(x.place : ℚ)| / unitsPerOne := by
    intro x
    rw [toRat, abs_div, abs_of_pos hunit]
  unfold slack
  rw [habs, habs, max_div_div_right hunit.le]
  field_simp

/-- A value lies between the edges of the bin it is counted in, give or take some slack. In the last
bin the upper edge is let in. -/
def Agrees (b : Binning Binary64) (slack : ℚ) (v : Binary64) : Prop :=
  (b.edge (b.index v)).toRat ≤ v.toRat + slack ∧
    if b.index v + 1 = b.bins then v.toRat ≤ (b.edge (b.index v + 1)).toRat + slack
    else v.toRat < (b.edge (b.index v + 1)).toRat + slack

instance (b : Binning Binary64) (slack : ℚ) (v : Binary64) : Decidable (b.Agrees slack v) :=
  inferInstanceAs (Decidable (_ ∧ _))

section

variable {b : Binning Binary64} {high v : Binary64} {values : List Binary64}

theorem agrees_slack (h : b.Divides high) (hv : b.InRange high v) : b.Agrees (b.slack high) v := by
  have hlow := le_max_left |(b.low.place : ℚ)| |(high.place : ℚ)|
  have hhigh := le_max_right |(b.low.place : ℚ)| |(high.place : ℚ)|
  have hbins : (0 : ℚ) < b.bins := by exact_mod_cast h.bins_pos
  have hindex := index_lt h.bins_pos v
  constructor
  · have hedge := edge_index_le h hv hlow hhigh
    refine toRat_le_add ?_
    rw [slack_mul]
    linarith
  · split
    next hend =>
      have hlast := high_le_last h hlow hhigh
      have habove : (v.place : ℚ) ≤ high.place := by exact_mod_cast hv.le_high
      refine toRat_le_add ?_
      rw [slack_mul, hend]
      linarith
    next hend =>
      have hedge := le_edge_index_succ h hv hlow hhigh (by omega)
      refine toRat_lt_add ?_
      rw [slack_mul]
      linarith

theorem Unrounded.agrees_zero (hexact : b.Unrounded high values) (h : b.Divides high)
    (hv : b.InRange high v) (hmem : v ∈ values) : b.Agrees 0 v := by
  have hindex := index_lt h.bins_pos v
  constructor
  · refine toRat_le_add ?_
    rw [zero_mul, add_zero]
    exact_mod_cast hexact.edge_index_le h hv hmem
  · split
    next hend =>
      refine toRat_le_add ?_
      rw [zero_mul, add_zero, hend]
      exact_mod_cast hv.le_high.trans_eq hexact.last.symm
    next hend =>
      refine toRat_lt_add ?_
      rw [zero_mul, add_zero]
      exact_mod_cast hexact.lt_edge_index_succ h hv hmem (by omega)

end

end Binning

namespace Histogram

/-- **A value is counted in the bin between whose edges it lies, up to rounding.** If nothing
overflows, it misses the bin by the slack at most; and if nothing is rounded but the quotients, it
does not miss it. -/
theorem ofValues_agrees (values : List Binary64) {bins : Nat} (hbins : 1 ≤ bins)
    (hmax : bins ≤ 2 ^ 53)
    (hlast : ((Binning.ofValues bins (finiteValues values)).edge bins).isFinite = true) :
    let finite := finiteValues values
    let b := Binning.ofValues bins finite
    let high := (binningRange finite).2
    Histogram.ofValues values bins = .ok (ofBinning b finite) ∧ (∀ e ∈ b.edges, e.isFinite = true) ∧
      (∀ v ∈ values, v.isFinite = true → b.Agrees (b.slack high) v) ∧
      (b.Unrounded high values → ∀ v ∈ values, v.isFinite = true → b.Agrees 0 v) := by
  have hfinite := isFinite_of_mem_finiteValues values
  have hspans := spans_binningRange hfinite
  have h := Binning.divides_ofValues hfinite hbins hmax hlast
  have hrange : ∀ v ∈ values, v.isFinite = true →
      (Binning.ofValues bins (finiteValues values)).InRange
        (binningRange (finiteValues values)).2 v := by
    intro v hv hv'
    obtain ⟨hlow, hhigh⟩ := hspans.within v (mem_finiteValues.mpr ⟨hv, hv'⟩)
    exact ⟨hv', hlow, hhigh⟩
  refine ⟨Histogram.ofValues_eq values hbins, fun e he => ?_, fun v hv hv' => ?_,
    fun hexact v hv hv' => ?_⟩
  · obtain ⟨i, hi, rfl⟩ := Binning.mem_edges.mp he
    exact h.edge_finite i hi
  · exact Binning.agrees_slack h (hrange v hv hv')
  · exact hexact.agrees_zero h (hrange v hv hv') hv

theorem ofValues_agrees_zero_to_four :
    (Binning.ofValues 4 (finiteValues [((0 : Nat) : Binary64), (4 : Nat), (1 : Nat)])).Agrees 0
      (4 : Nat) := by
  have hagrees :=
    ofValues_agrees [((0 : Nat) : Binary64), (4 : Nat), (1 : Nat)] (by decide : 1 ≤ 4) (by decide)
    (by decide +kernel)
  refine hagrees.2.2.2 ⟨?_, ?_, ?_, ?_, ?_⟩ (4 : Nat) (by simp) (by decide +kernel)
  all_goals decide +kernel

/-- The last edge can stand below the greatest value, and the lower edge of a bin above a value in
it. -/
theorem ofValues_disagrees :
    ¬ (Binning.ofValues 1 (finiteValues [-((1 : Nat) : Binary64), 1e-20])).Agrees 0 1e-20 ∧
      ¬ (Binning.ofValues 2 (finiteValues [-((1 : Nat) : Binary64), (1 : Nat), -1e-20])).Agrees 0
        (-1e-20) := by
  decide +kernel

end Histogram

end Beamline
