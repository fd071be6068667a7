import Beamline.Proofs.Binary64.Factor
import Beamline.Proofs.Histogram.Counts
import Beamline.Proofs.Histogram.Range

/-!
# Counting — every value once, and in order

The index of a value is the whole part of a quotient, and the quotient may be anything: NaN where
zero is divided by zero, infinite where another value is, zero where the width is infinite. To the
counts it does not matter, since every index is clamped.

It does matter to the order. Dividing by a width without a minus sign keeps values in order, with
NaN in the place of zero (`place_div_mono`); for a width that is zero or infinite this holds because
no quotient is then between the ends of the line. The difference before it and the whole part after
it are monotone as well, so indices are (`Binning.index_mono`), and the least value, whose
difference is zero, has the index zero.
-/

set_option autoImplicit false

namespace Beamline

/-! ## Quotients -/

namespace Binary64

variable {x y w : Binary64} {p q : ℤ}

theorem div_of_units_eq_zero (s : Sign) (m : Magnitude) (t : Sign) {n : Magnitude}
    (hn : n.units = 0) :
    finite s m / finite t n = if m.units = 0 then nan else infinite (s.times t) :=
  if_pos hn

/-- Zero divided by anything is zero, or NaN where there is nothing to divide by. -/
theorem place_div_of_zero (hx : x.position? = some 0) (w : Binary64) : (x / w).place = 0 := by
  obtain ⟨s, rfl⟩ := exists_zero hx
  have hm : Magnitude.zero.units = 0 := rfl
  unfold zero
  generalize Magnitude.zero = m at hm
  cases w with
  | nan => rfl
  | infinite t => cases s <;> cases t <;> rfl
  | finite t n =>
    by_cases hn : n.units = 0
    · rw [div_of_units_eq_zero s m t hn, if_pos hm]
      rfl
    · have happly : (s.times t).apply 0 = 0 := by cases s <;> cases t <;> rfl
      have hplace := position?_round (s.times t) 0 n.units
      rw [happly, nearestUnits_zero] at hplace
      rw [div_finite s m t hn, hm, Nat.zero_mul]
      exact place_eq hplace

/-- A value that is not zero, divided by zero. -/
theorem div_eq_infinite (hx : x.IsPlus) (hxfinite : x.isFinite = true)
    (hne : x.place ≠ 0) (hw : w.IsPlus) (hwfinite : w.isFinite = true) (hzero : w.place = 0) :
    x / w = infinite .plus := by
  cases hx with
  | nan => cases hxfinite
  | infinite => cases hxfinite
  | finite m =>
    cases hw with
    | nan => cases hwfinite
    | infinite => cases hwfinite
    | finite n =>
      have hplace : ∀ k : Magnitude, (finite .plus k).place = k.units := fun _ => rfl
      rw [hplace] at hne hzero
      rw [div_of_units_eq_zero .plus m .plus (by exact_mod_cast hzero),
        if_neg (by exact_mod_cast hne)]
      rfl

/-- Dividing by a value without a minus sign keeps the order, also where that value is zero or
infinite. -/
theorem place_div_mono (hw : w.IsPlus) (hx : x.position? = some p) (hy : y.position? = some q)
    (hp : 0 ≤ p) (hle : p ≤ q) : (x / w).place ≤ (y / w).place := by
  rcases hp.eq_or_lt with rfl | hpos
  · rw [place_div_of_zero hx w]
    rcases hle.eq_or_lt with rfl | hpos'
    · exact (place_div_of_zero hy w).ge
    · exact ((isPlus_of_pos hy hpos').div hw).place_nonneg
  have hplus := isPlus_of_pos hx hpos
  have hplus' := isPlus_of_pos hy (hpos.trans_le hle)
  cases hw with
  | nan => cases hplus <;> cases hplus' <;> exact le_rfl
  | infinite => cases hplus <;> cases hplus' <;> exact le_rfl
  | finite n =>
    by_cases hn : n.units = 0
    -- Nothing is above what a value that is not zero gives when it is divided by zero.
    · have htop : y / finite .plus n = infinite .plus := by
        cases hplus' with
        | nan => cases hy
        | infinite => rfl
        | finite m =>
          cases hy
          rw [div_of_units_eq_zero .plus m .plus hn, if_neg (by rw [Sign.plus_apply] at hle; omega)]
          rfl
      rw [htop]
      exact place_le _
    · refine place_div_mono_of_pos (d := n.units) rfl (Nat.pos_of_ne_zero hn) ?_
      rwa [place_eq hx, place_eq hy]

end Binary64

/-! ## The bin of a value -/

namespace Binning

variable {b : Binning Binary64} {v w : Binary64}

theorem maxCount_le : maxCount ≤ 2 ^ (overflowBits - oneBits) := by
  have hpow : 2 ^ 64 ≤ 2 ^ (overflowBits - oneBits) := Nat.pow_le_pow_right Nat.two_pos (by decide)
  exact (Nat.sub_le _ _).trans hpow

/-- The index of a value comes of the place of the quotient. -/
theorem index_eq_place (b : Binning Binary64) (v : Binary64) :
    b.index v = min (min (((v - b.low) / b.width).place / unitsPerOne).toNat maxCount)
      (b.bins - 1) := by
  rw [← Binary64.truncate_eq maxCount_le]
  rfl

theorem position?_sub_low (hlow : b.low.isFinite = true) (hv : v.isFinite = true) :
    (v - b.low).position? = some (nearestUnits (v.place - b.low.place) 1) :=
  Binary64.position?_sub (Binary64.signed_place hv) (Binary64.signed_place hlow)

/-- **A lower value is in a lower bin, or in the same one**, whatever the width has come to be. -/
theorem index_mono (hwidth : b.width.IsPlus) (hlow : b.low.isFinite = true) (hv : v.isFinite = true)
    (hw : w.isFinite = true) (hle : b.low.place ≤ v.place) (h : v.place ≤ w.place) :
    b.index v ≤ b.index w := by
  have hdifference : nearestUnits (v.place - b.low.place) 1 ≤
      nearestUnits (w.place - b.low.place) 1 :=
    nearestUnits_one_mono (by omega)
  have hquotient : ((v - b.low) / b.width).place ≤ ((w - b.low) / b.width).place :=
    Binary64.place_div_mono hwidth (position?_sub_low hlow hv) (position?_sub_low hlow hw)
      (nearestUnits_nonneg (by omega) 1) hdifference
  rw [index_eq_place, index_eq_place]
  refine min_le_min_right _ (min_le_min_right _ (Int.toNat_le_toNat ?_))
  exact Int.ediv_le_ediv (Int.natCast_pos.mpr unitsPerOne_pos) hquotient

/-- The lower end of the range is in the first bin. -/
theorem index_eq_zero (hlow : b.low.isFinite = true) (hv : v.isFinite = true)
    (h : v.place = b.low.place) : b.index v = 0 := by
  have hdifference := position?_sub_low hlow hv
  rw [h, sub_self, nearestUnits_zero] at hdifference
  rw [index_eq_place, Binary64.place_div_of_zero hdifference b.width, Int.zero_ediv]
  simp

end Binning

/-! ## The counts -/

namespace Binning

/-- What binning values means: each finite one is in one bin and no other one in any, and the bins
stand in the order of the values in them. -/
structure Sorts (b : Binning Binary64) (values : List Binary64) : Prop where
  index_lt : ∀ v ∈ values, v.isFinite = true → b.index v < b.bins
  length_counts : (b.counts (finiteValues values)).length = b.bins
  count : ∀ i < b.bins, (b.counts (finiteValues values))[i]? =
    some (values.countP fun v => v.isFinite && b.index v == i)
  sum : (b.counts (finiteValues values)).sum = values.countP Binary64.isFinite
  mono : ∀ v ∈ values, ∀ w ∈ values, v.isFinite = true → w.isFinite = true → v.le w = true →
    b.index v ≤ b.index w
  least : ∀ v ∈ values, v.isFinite = true → (∀ w ∈ values, w.isFinite = true → v.le w = true) →
    (∃ w ∈ values, w.isFinite = true ∧ v.lt w = true) → b.index v = 0

end Binning

theorem mem_finiteValues {values : List Binary64} {v : Binary64} :
    v ∈ finiteValues values ↔ v ∈ values ∧ v.isFinite = true :=
  List.mem_filter

theorem isFinite_of_mem_finiteValues (values : List Binary64) :
    ∀ v ∈ finiteValues values, v.isFinite = true :=
  fun _ hv => (mem_finiteValues.mp hv).2

/-- The lower end of the range is the least value, unless there is only one. -/
theorem place_low_eq {values : List Binary64} (hvalues : ∀ v ∈ values, v.isFinite = true)
    {v w : Binary64} (hv : v ∈ values) (hw : w ∈ values) (hleast : ∀ u ∈ values, v.place ≤ u.place)
    (hlt : v.place < w.place) :
    v.place = (binningRange values).1.place := by
  rcases binningRange_cases hvalues with ⟨rfl, -⟩ | ⟨low, high, h, ⟨-, hrange⟩ | ⟨heq, -⟩⟩
  · cases hv
  · rw [hrange]
    exact le_antisymm (hleast low h.low_mem) (h.within v hv).1
  · have hwithin := h.within v hv
    have hwithin' := h.within w hw
    omega

/-- **Binning loses nothing and keeps the order.** For any values and any number of bins there are
as many counts as bins; each finite value is counted in one of them, and none that is not finite;
lower values are not in higher bins, and the least value is in the first one unless it is the only
one. -/
theorem Histogram.ofValues_sorts (values : List Binary64) {bins : Nat} (hbins : 1 ≤ bins) :
    let b := Binning.ofValues bins (finiteValues values)
    Histogram.ofValues values bins = .ok (ofBinning b (finiteValues values)) ∧ b.Sorts values := by
  have hfinite := isFinite_of_mem_finiteValues values
  have hrange := spans_binningRange hfinite
  have hwidth := isPlus_width bins hfinite
  refine ⟨Histogram.ofValues_eq values hbins, ?_⟩
  have hpos : 0 < (Binning.ofValues bins (finiteValues values)).bins := hbins
  refine {
    index_lt := fun v _ _ => Binning.index_lt hpos v
    length_counts := Binning.length_counts _
    count := fun i hi => ?_
    sum := ?_
    mono := fun v hv w hw hv' hw' hle => ?_
    least := fun v hv hv' hleast hlt => ?_ }
  · rw [Binning.getElem?_counts hi, List.count_eq_countP, List.countP_map]
    unfold finiteValues
    rw [List.countP_filter]
    exact congrArg some (List.countP_congr fun v _ => by rw [Bool.and_comm]; rfl)
  · rw [Binning.sum_counts hpos]
    exact List.countP_eq_length_filter.symm
  · rw [Binary64.le_eq hv' hw', decide_eq_true_eq] at hle
    have hin := hrange.within v (mem_finiteValues.mpr ⟨hv, hv'⟩)
    exact Binning.index_mono hwidth hrange.low_finite hv' hw' hin.1 hle
  · obtain ⟨w, hw, hw', hvw⟩ := hlt
    rw [Binary64.lt_eq hv' hw', decide_eq_true_eq] at hvw
    refine Binning.index_eq_zero hrange.low_finite hv' ?_
    refine place_low_eq hfinite (mem_finiteValues.mpr ⟨hv, hv'⟩) (mem_finiteValues.mpr ⟨hw, hw'⟩)
      (fun u hu => ?_) hvw
    obtain ⟨hu, hu'⟩ := mem_finiteValues.mp hu
    have hle := hleast u hu hu'
    rwa [Binary64.le_eq hv' hu', decide_eq_true_eq] at hle

theorem Histogram.ofValues_sorts_mixed :
    (Binning.ofValues 2
      (finiteValues [.nan, ((1 : Nat) : Binary64), .zero .minus, .infinite .plus])).Sorts
      [.nan, ((1 : Nat) : Binary64), .zero .minus, .infinite .plus] :=
  (ofValues_sorts [.nan, ((1 : Nat) : Binary64), .zero .minus, .infinite .plus] (by decide)).2

end Beamline
