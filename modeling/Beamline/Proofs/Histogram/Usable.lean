import Beamline.Proofs.Histogram.Edges

/-!
# Usable histograms — finite edges apart, and a finite density in each bin

A histogram of finite values can fail to be one that can be drawn, and in three ways. There may be
no room between the ends of the range, as half a unit makes no difference to a large value. The
range may be wider than the largest value, so that its width is infinite. Or the width may be so
small that a count over it overflows.

Each of them shows in one number, and nothing else can go wrong (`Histogram.ofValues_usable_iff`).
The densities have one area in common, so the largest count decides for all of them
(`isFinite_density_iff`), and a width with all 53 bits is always enough: what is multiplied with it
grows by less than it shrinks by being divided (`isFinite_div_mul_self`).
-/

set_option autoImplicit false

namespace Beamline

open Binary64

/-! ## The densities -/

namespace Binary64

variable {x y w : Binary64} {p q : ℤ}

/-- To be above zero is to stand above zero; NaN, which stands nowhere, counts as standing at
zero. -/
theorem zero_lt_eq (x : Binary64) : (zero .plus).lt x = decide (0 < x.place) := by
  have hzero : (zero .plus).position? = some 0 := rfl
  unfold lt place
  rw [hzero]
  cases x.position? <;> rfl

/-- What is divided like something larger has a finite quotient if that has. So of all counts only
the largest has to be looked at. -/
theorem isFinite_div_of_le (hx : x.position? = some p) (hplus : x.IsPlus)
    (hy : y.position? = some q)
    (hw : w.IsPlus) (hle : p ≤ q) (h : (y / w).isFinite = true) : (x / w).isFinite = true := by
  have hmono := place_div_mono hw hx hy (hplus.position?_nonneg hx) hle
  have hyfinite := isFinite_of_div_left h
  have hxfinite : x.isFinite = true :=
    isFinite_of_between (x := zero .plus) rfl hyfinite hx (hplus.position?_nonneg hx)
      (hle.trans_eq (place_eq hy).symm)
  cases hplus with
  | nan => cases hxfinite
  | infinite => cases hxfinite
  | finite m =>
    cases hw with
    | nan => cases y <;> cases h
    | infinite => rfl
    | finite n =>
      by_cases hn : n.units = 0
      · cases y with
        | nan => cases hyfinite
        | infinite t => cases hyfinite
        | finite t m' =>
          rw [div_of_units_eq_zero t m' .plus hn] at h
          split at h <;> cases h
      · rw [div_finite _ _ _ hn] at hmono ⊢
        have hround := position?_round (Sign.plus.times .plus) (m.units * unitsPerOne) n.units
        rw [place_eq hround] at hmono
        exact isFinite_of_between (x := zero .plus) rfl h hround
          (nearestUnits_nonneg (Int.natCast_nonneg _) _) hmono

/-- The least value that has all 53 bits. From here on rounding is off by a small share of the
value, and below it by half a unit, however small the value is. -/
def leastNormal : Binary64 := round .plus (2 ^ 52) 1

theorem place_leastNormal : leastNormal.place = 2 ^ 52 := by
  decide +kernel

theorem isFinite_natCast {n : Nat} (hn : n ≤ 2 ^ 64) : (n : Binary64).isFinite = true := by
  have hlt := roundUnits_nat_lt hn (by decide)
  rw [natCast_eq, round, dif_pos hlt]
  rfl

theorem unitsPerOne_le_place {n : Nat} (hpos : 1 ≤ n) :
    (unitsPerOne : ℤ) ≤ (n : Binary64).place := by
  have hone := nearestUnits_position (position?_of_signed (signed_natCast (n := 1) (by decide)))
  rw [Nat.one_mul] at hone
  rw [place_eq (position?_natCast n), ← hone]
  refine nearestUnits_one_mono ?_
  exact_mod_cast Nat.le_mul_of_pos_left unitsPerOne hpos

theorem two_mul_sq_unitsPerOne_le :
    2 * unitsPerOne * unitsPerOne ≤ 2 ^ (overflowBits - 1) * 2 ^ 52 := by
  decide +kernel

/-- Rounding a quotient of two units or more leaves at least half of it. -/
theorem le_two_mul_roundUnits {num den : Nat} (hd : 0 < den) (h : 2 * den ≤ num) :
    num ≤ 2 * roundUnits num den * den := by
  have hd' : (0 : ℚ) < den := by exact_mod_cast hd
  have hquotient : (2 : ℚ) ≤ num / den := by
    rw [le_div_iff₀ hd']
    exact_mod_cast h
  have herror := (abs_le.mp (@abs_roundUnits_sub_le_add num den hd)).1
  have hhalf : (num : ℚ) / den ≤ 2 * roundUnits num den := by
    unfold roundoff at herror
    linarith
  rw [div_le_iff₀ hd'] at hhalf
  exact_mod_cast hhalf

/-- What stands below the middle of the line has not overflowed. -/
theorem nearestUnits_lt_of_le {n d : Nat} (hd : 0 < d) (h : n ≤ 2 ^ (overflowBits - 1) * d) :
    (nearestUnits n d).natAbs < overflowUnits := by
  have hround := roundUnits_le hd (spacing_dvd_two_pow (overflowBits - 1)) h
  have hlt : 2 ^ (overflowBits - 1) < overflowUnits :=
    Nat.pow_lt_pow_right Nat.one_lt_two (by decide)
  rw [natAbs_nearestUnits, Int.natAbs_natCast]
  omega

theorem isFinite_div_infinite (hx : x.isFinite = true) (s : Sign) :
    (x / infinite s).isFinite = true := by
  cases x with
  | nan => cases hx
  | infinite t => cases hx
  | finite t m => rfl

/-- A product with a width that is not subnormal is large enough to divide by: a number over its own
product with the width is about one over the width, and that does not overflow. -/
theorem isFinite_div_mul_self {m n : Nat} (hx : x.signed = some (m : ℤ))
    (hw : w.signed = some (n : ℤ))
    (hm : unitsPerOne ≤ m) (hn : 2 ^ 52 ≤ n) : (x / (x * w)).isFinite = true := by
  have hposition := position?_mul hx hw
  by_cases hproduct : (x * w).isFinite = true
  · have hlarge : 2 * unitsPerOne ≤ m * n :=
      calc
        2 * unitsPerOne ≤ 2 ^ 52 * unitsPerOne := Nat.mul_le_mul_right _ (by decide)
        _ = unitsPerOne * 2 ^ 52 := Nat.mul_comm _ _
        _ ≤ m * n := Nat.mul_le_mul hm hn
    have hhalf := le_two_mul_roundUnits unitsPerOne_pos hlarge
    have hsigned : (x * w).signed = some ((roundUnits (m * n) unitsPerOne : Nat) : ℤ) := by
      have hlt := natAbs_place_lt hproduct
      rw [← Nat.cast_mul, nearestUnits_of_nonneg] at hposition
      rw [place_eq hposition, Int.natAbs_natCast] at hlt
      rw [signed_place hproduct, place_eq hposition, min_eq_left (by omega)]
    generalize roundUnits (m * n) unitsPerOne = r at hhalf hsigned
    have hunit := unitsPerOne_pos
    have hpos : 0 < r := by
      by_contra hzero
      obtain rfl : r = 0 := by omega
      omega
    have hle : m * unitsPerOne ≤ 2 ^ (overflowBits - 1) * r := by
      have htop := two_mul_sq_unitsPerOne_le
      generalize 2 ^ (overflowBits - 1) = top at htop ⊢
      refine Nat.le_of_mul_le_mul_right ?_ (by omega : 0 < 2 * unitsPerOne)
      calc
        m * unitsPerOne * (2 * unitsPerOne) = m * (2 * unitsPerOne * unitsPerOne) := by ring
        _ ≤ m * (top * 2 ^ 52) := Nat.mul_le_mul_left m htop
        _ = top * (m * 2 ^ 52) := by ring
        _ ≤ top * (2 * r * unitsPerOne) :=
          Nat.mul_le_mul_left top ((Nat.mul_le_mul_left m hn).trans hhalf)
        _ = top * r * (2 * unitsPerOne) := by ring
    have hquotient := position?_div hx hsigned hpos
    refine isFinite_iff.mpr ⟨_, signed_of_position? hquotient ?_⟩
    exact_mod_cast nearestUnits_lt_of_le hpos hle
  · cases hz : x * w with
    | nan =>
      rw [hz] at hposition
      cases hposition
    | infinite s => exact isFinite_div_infinite (isFinite_iff.mpr ⟨_, hx⟩) s
    | finite s r =>
      rw [hz] at hproduct
      exact absurd rfl hproduct

end Binary64

namespace Binning

section

variable {b : Binning Binary64} {values : List Binary64}

/-- The density of the fullest bin. It is a number that the program computes, so the condition on it
can be checked on its output. -/
def peak (b : Binning Binary64) (values : List Binary64) : Binary64 :=
  (((b.counts values).max?.getD 0 : Nat) : Binary64) / ((values.length : Nat) * b.width)

theorem isPlus_density (hwidth : b.width.IsPlus) :
    ∀ d ∈ (Histogram.ofBinning b values).density, d.IsPlus := by
  intro d hd
  obtain ⟨c, -, rfl⟩ := List.mem_map.mp hd
  exact (isPlus_natCast c).div ((isPlus_natCast _).mul hwidth)

/-- The densities are finite if that of the fullest bin is. All of them are counts over one and the
same area. -/
theorem isFinite_density_iff (hbins : 0 < b.bins) (hwidth : b.width.IsPlus) :
    (∀ d ∈ (Histogram.ofBinning b values).density, d.isFinite = true) ↔
      (b.peak values).isFinite = true := by
  have harea : ((values.length : Nat) * b.width).IsPlus := (isPlus_natCast _).mul hwidth
  have hne : b.counts values ≠ [] := by
    intro hnil
    have hlength := length_counts (b := b) values
    rw [hnil, List.length_nil] at hlength
    omega
  obtain ⟨most, hmost⟩ : ∃ most, (b.counts values).max? = some most :=
    Option.ne_none_iff_exists'.mp (mt List.max?_eq_none_iff.mp hne)
  obtain ⟨hmem, hle⟩ := List.max?_eq_some_iff.mp hmost
  unfold peak
  rw [hmost, Option.getD_some]
  constructor
  · intro h
    exact h _ (List.mem_map_of_mem hmem)
  · intro h d hd
    obtain ⟨c, hc, rfl⟩ := List.mem_map.mp hd
    refine isFinite_div_of_le (position?_natCast c) (isPlus_natCast c)
      (position?_natCast most) harea ?_ h
    exact nearestUnits_one_mono (by exact_mod_cast Nat.mul_le_mul_right unitsPerOne (hle c hc))

/-- A width that is not subnormal leaves room for every density. No bin holds more than all of the
values, and for all of them together the density is about one over the width. -/
theorem isFinite_peak (hbins : 0 < b.bins) (hplus : b.width.IsPlus)
    (hfinite : b.width.isFinite = true)
    (hnormal : 2 ^ 52 ≤ b.width.place) (hne : values ≠ []) (hlength : values.length ≤ 2 ^ 64) :
    (b.peak values).isFinite = true := by
  refine (isFinite_density_iff hbins hplus).mp fun d hd => ?_
  obtain ⟨c, hc, rfl⟩ := List.mem_map.mp hd
  have hle : c ≤ values.length := (List.le_sum_of_mem hc).trans_eq (sum_counts hbins values)
  have hpos : 1 ≤ values.length := List.length_pos_iff.mpr hne
  have hcount := isFinite_natCast hlength
  obtain ⟨n, hn⟩ := Int.eq_ofNat_of_zero_le hplus.place_nonneg
  obtain ⟨m, hm⟩ := Int.eq_ofNat_of_zero_le (isPlus_natCast values.length).place_nonneg
  have hunit := unitsPerOne_le_place hpos
  rw [hm] at hunit
  rw [hn] at hnormal
  refine isFinite_div_of_le (position?_natCast c) (isPlus_natCast c)
    (position?_natCast values.length)
    ((isPlus_natCast _).mul hplus)
    (nearestUnits_one_mono (by exact_mod_cast Nat.mul_le_mul_right unitsPerOne hle)) ?_
  refine isFinite_div_mul_self (m := m) (n := n) ?_ ?_ (by exact_mod_cast hunit)
    (by exact_mod_cast hnormal)
  · rw [signed_place hcount, hm]
  · rw [signed_place hfinite, hn]

end

end Binning

/-! ## Usable histograms -/

/-- A histogram that can be drawn: finite edges in order that lie apart, and a finite density in
each bin. -/
structure Histogram.Usable (h : Histogram Binary64) (bins : Nat) : Prop where
  length_edges : h.edges.length = bins + 1
  edges_finite : ∀ e ∈ h.edges, e.isFinite = true
  edges_sorted : h.edges.Pairwise fun e f => e.le f = true
  first_lt_last : ∃ first last, h.edges.head? = some first ∧ h.edges.getLast? = some last ∧
    first.lt last = true
  length_density : h.density.length = bins
  density_finite : ∀ d ∈ h.density, d.isFinite = true
  density_nonneg : ∀ d ∈ h.density, (zero .plus).le d = true

namespace Binning

variable {values : List Binary64} {bins : Nat}

/-- Bins that divide their range, with a width above zero and a finite peak, make a histogram that
can be drawn. -/
theorem Divides.usable {b : Binning Binary64} {high : Binary64} (h : b.Divides high)
    (hpos : 0 < b.width.place) (hpeak : (b.peak values).isFinite = true) :
    (Histogram.ofBinning b values).Usable b.bins := by
  have hfinite := (isFinite_density_iff h.bins_pos h.width_plus).mpr hpeak
  have hfirst := h.edge_finite 0 (Nat.zero_le _)
  have hlast := h.edge_finite b.bins le_rfl
  refine {
    length_edges := by simp [Histogram.ofBinning, edges]
    edges_finite := fun e he => ?_
    edges_sorted := h.pairwise_edges
    first_lt_last := ⟨_, _, head?_edges b, getLast?_edges b, ?_⟩
    length_density := by simp [Histogram.ofBinning, length_counts]
    density_finite := hfinite
    density_nonneg := fun d hd => ?_ }
  · obtain ⟨i, hi, rfl⟩ := mem_edges.mp he
    exact h.edge_finite i hi
  · rw [lt_eq hfirst hlast, h.place_edge_zero]
    exact decide_eq_true (h.low_lt_last hpos)
  · have hzero : (zero .plus).place = 0 := rfl
    rw [le_eq rfl (hfinite d hd), hzero]
    exact decide_eq_true (isPlus_density h.width_plus d hd).place_nonneg

/-- What can go wrong with the bins of finite values: there may be no room between the ends of the
range, or not enough for the densities, or too much for the width. Each of the three would show in
the histogram, and each leaves nothing else to go wrong. -/
theorem usable_iff (hvalues : ∀ v ∈ values, v.isFinite = true) (hbins : 1 ≤ bins)
    (hmax : bins ≤ 2 ^ 53) :
    (Histogram.ofBinning (ofValues bins values) values).Usable bins ↔
      0 < (ofValues bins values).width.place ∧ ((ofValues bins values).edge bins).isFinite = true ∧
        ((ofValues bins values).peak values).isFinite = true := by
  have hplus := isPlus_width bins hvalues
  constructor
  · intro h
    have hlast : ((ofValues bins values).edge bins).isFinite = true :=
      h.edges_finite _ (mem_edges.mpr ⟨bins, le_rfl, rfl⟩)
    have hregular := (divides_ofValues hvalues hbins hmax hlast).toRegular
    refine ⟨lt_of_le_of_ne hregular.width_nonneg fun hzero => ?_, hlast,
      (isFinite_density_iff (b := ofValues bins values) hbins hplus).mp h.density_finite⟩
    obtain ⟨first, last, hfirst, hlast', hlt⟩ := h.first_lt_last
    obtain rfl := Option.some.inj ((head?_edges _).symm.trans hfirst)
    obtain rfl := Option.some.inj ((getLast?_edges _).symm.trans hlast')
    rw [lt_eq (hregular.edge_finite 0 (Nat.zero_le _)) (hregular.edge_finite _ le_rfl),
      hregular.place_edge_zero, hregular.place_edge_of_width hzero.symm le_rfl] at hlt
    simp at hlt
  · rintro ⟨hpos, hlast, hpeak⟩
    exact (divides_ofValues hvalues hbins hmax hlast).usable hpos hpeak

end Binning

namespace Histogram

/-- **When a histogram of finite values can be drawn.** Three numbers decide: the width has to be
above zero, and the last edge and the density of the fullest bin finite. A width that is not
subnormal is as good as the last of them. -/
theorem ofValues_usable_iff {values : List Binary64} (hne : ∃ v ∈ values, v.isFinite = true)
    {bins : Nat} (hbins : 1 ≤ bins) (hmax : bins ≤ 2 ^ 32) :
    let finite := finiteValues values
    let b := Binning.ofValues bins finite
    ∃ h, Histogram.ofValues values bins = .ok h ∧
      (h.Usable bins ↔ (zero .plus).lt b.width = true ∧ (b.edge bins).isFinite = true ∧
        (b.peak finite).isFinite = true) ∧
      (leastNormal.le b.width = true → (b.edge bins).isFinite = true → values.length ≤ 2 ^ 64 →
        h.Usable bins) := by
  have hfinite := isFinite_of_mem_finiteValues values
  have hmax' : bins ≤ 2 ^ 53 := hmax.trans (by decide)
  have hplus := isPlus_width bins hfinite
  refine ⟨_, Histogram.ofValues_eq values hbins, ?_, fun hnormal hlast hlength => ?_⟩
  · rw [zero_lt_eq, decide_eq_true_eq]
    exact Binning.usable_iff hfinite hbins hmax'
  · have hdivides := Binning.divides_ofValues hfinite hbins hmax' hlast
    have hleast : leastNormal.isFinite = true := by decide +kernel
    rw [le_eq hleast hdivides.width_finite, place_leastNormal, decide_eq_true_eq] at hnormal
    have hsome : finiteValues values ≠ [] := by
      obtain ⟨v, hv, hv'⟩ := hne
      exact List.ne_nil_of_mem (mem_finiteValues.mpr ⟨hv, hv'⟩)
    have hpeak := Binning.isFinite_peak hdivides.bins_pos hplus hdivides.width_finite hnormal hsome
      ((List.length_filter_le _ _).trans hlength)
    exact hdivides.usable (lt_of_lt_of_le (by decide) hnormal) hpeak

theorem ofValues_usable_zero_to_four :
    ∃ h, Histogram.ofValues ([0, 1, 2, 3, 4].map fun n : Nat => (n : Binary64)) 4 = .ok h ∧
      h.Usable 4 := by
  obtain ⟨h, hvalues, -, hnormal⟩ :=
    @ofValues_usable_iff ([0, 1, 2, 3, 4].map fun n : Nat => (n : Binary64))
    ⟨_, List.mem_cons_self, by decide +kernel⟩ 4 (by decide) (by decide)
  exact ⟨h, hvalues, hnormal (by decide +kernel) (by decide +kernel) (by decide)⟩

/-- A constant so large that half a unit is lost in it, a range wider than the largest value, and a
range of one unit, which is too narrow for a density. -/
theorem ofValues_unusable :
    (¬ ∃ h, Histogram.ofValues [((2 ^ 52 + 2 : Nat) : Binary64)] 1 = .ok h ∧ h.Usable 1) ∧
    (¬ ∃ h, Histogram.ofValues [-((2 ^ 1023 : Nat) : Binary64), (2 ^ 1023 : Nat)] 1 = .ok h ∧
      h.Usable 1) ∧
      ¬ ∃ h, Histogram.ofValues [zero .plus, round .plus 1 1] 1 = .ok h ∧ h.Usable 1 := by
  have hunusable : ∀ values : List Binary64,
      ¬ (0 < (Binning.ofValues 1 (finiteValues values)).width.place ∧
        ((Binning.ofValues 1 (finiteValues values)).edge 1).isFinite = true ∧
        ((Binning.ofValues 1 (finiteValues values)).peak (finiteValues values)).isFinite = true) →
      ¬ ∃ h, Histogram.ofValues values 1 = .ok h ∧ h.Usable 1 := by
    rintro values hcondition ⟨h, hvalues, husable⟩
    rw [Histogram.ofValues_eq values le_rfl] at hvalues
    obtain rfl := Except.ok.inj hvalues
    exact hcondition
      ((Binning.usable_iff (isFinite_of_mem_finiteValues values) le_rfl (by decide)).mp husable)
  refine ⟨hunusable _ ?_, hunusable _ ?_, hunusable _ ?_⟩
  all_goals decide +kernel

end Histogram

end Beamline
