import Beamline.Proofs.Binary64.Error
import Beamline.Proofs.Histogram.Counting

/-!
# Edges — where the ends of the bins come to stand

The edges are the lower end and multiples of the width, rounded twice. Whether all of that is finite
shows at the last edge: everything before it stands between the ends, because rounding is monotone
(`regular_of_last`).

How far the last edge is from the upper end of the range is a matter of three errors: of the
difference between the ends, of the width, which is taken that many times, and of the last multiple.
They are stated one by one, each relative to its exact result, and only the width can lose more than
a small part of it, when it is a few units wide. Even then the bins reach over more than half of the
range (`Divides.span_lt`), so that bins of some width never end where they begin
(`Divides.low_lt_last`).
-/

set_option autoImplicit false

namespace Beamline

open Binary64

/-! ## Multiples -/

namespace Binary64

variable {w : Binary64} {i j : Nat}

theorem place_mul_natCast_le (hw : w.isFinite = true) (hplus : w.IsPlus) (hij : i ≤ j)
    (hj : j ≤ 2 ^ 53) :
    (w * (i : Binary64)).place ≤ (w * (j : Binary64)).place := by
  rw [place_eq (position?_mul_natCast hw (hij.trans hj)), place_eq (position?_mul_natCast hw hj)]
  have hle : (i : ℤ) ≤ j := by exact_mod_cast hij
  exact nearestUnits_one_mono (Int.mul_le_mul_of_nonneg_left hle hplus.place_nonneg)

theorem isFinite_mul_natCast_of_le (hw : w.isFinite = true) (hplus : w.IsPlus) (hij : i ≤ j)
    (hj : j ≤ 2 ^ 53) (h : (w * (j : Binary64)).isFinite = true) :
    (w * (i : Binary64)).isFinite = true := by
  have hposition := position?_mul_natCast hw (hij.trans hj)
  refine isFinite_of_between (x := zero .plus) rfl h hposition ?_ ?_
  · exact (hplus.mul (isPlus_natCast i)).position?_nonneg hposition
  · exact (place_eq hposition).symm.trans_le (place_mul_natCast_le hw hplus hij hj)

end Binary64

namespace Binning

/-! ## Bins that do not overflow -/

/-- Bins whose numbers are all finite, and as many as a value can count. Everything about the places
of edges is proved of these. -/
structure Regular (b : Binning Binary64) : Prop where
  bins_le : b.bins ≤ 2 ^ 53
  low_finite : b.low.isFinite = true
  width_finite : b.width.isFinite = true
  width_plus : b.width.IsPlus
  step_finite : ∀ i ≤ b.bins, (b.width * (i : Binary64)).isFinite = true
  edge_finite : ∀ i ≤ b.bins, (b.edge i).isFinite = true

section

variable {b : Binning Binary64} {i j : Nat}

/-- One look at the last edge tells that nothing has overflowed on the way to it: the multiples of
the width do not decrease, and what is not finite stays so in a sum. -/
theorem regular_of_last (hbins : b.bins ≤ 2 ^ 53) (hlow : b.low.isFinite = true)
    (hplus : b.width.IsPlus) (hlast : (b.edge b.bins).isFinite = true) : b.Regular := by
  have hstep : (b.width * (b.bins : Binary64)).isFinite = true := isFinite_of_add hlast hlow
  have hwidth : b.width.isFinite = true := isFinite_of_mul_left hstep
  have hsteps : ∀ i ≤ b.bins, (b.width * (i : Binary64)).isFinite = true := fun i hi =>
    isFinite_mul_natCast_of_le hwidth hplus hi hbins hstep
  refine ⟨hbins, hlow, hwidth, hplus, hsteps, fun i hi => ?_⟩
  have hnonneg := (hplus.mul (isPlus_natCast i)).place_nonneg
  have hplace := place_mul_natCast_le hwidth hplus hi hbins
  have hself := nearestUnits_position (position?_place hlow)
  have hsum : (b.edge b.bins).place = _ := place_add hlow hstep
  refine isFinite_of_between hlow hlast
    (position?_add (signed_place hlow) (signed_place (hsteps i hi))) ?_ ?_
  · exact hself.symm.trans_le (nearestUnits_one_mono (by omega))
  · exact (nearestUnits_one_mono (by omega)).trans_eq hsum.symm

theorem Regular.width_nonneg (h : b.Regular) : 0 ≤ b.width.place :=
  h.width_plus.place_nonneg

theorem Regular.step_nonneg (h : b.Regular) (i : Nat) : 0 ≤ (b.width * (i : Binary64)).place :=
  (h.width_plus.mul (isPlus_natCast i)).place_nonneg

theorem Regular.place_step (h : b.Regular) (hi : i ≤ b.bins) :
    (b.width * (i : Binary64)).place = nearestUnits (b.width.place * i) 1 :=
  place_eq (position?_mul_natCast h.width_finite (hi.trans h.bins_le))

theorem Regular.place_edge (h : b.Regular) (hi : i ≤ b.bins) :
    (b.edge i).place = nearestUnits (b.low.place + (b.width * (i : Binary64)).place) 1 :=
  place_add h.low_finite (h.step_finite i hi)

/-- The edges do not decrease. -/
theorem Regular.place_edge_mono (h : b.Regular) (hij : i ≤ j) (hj : j ≤ b.bins) :
    (b.edge i).place ≤ (b.edge j).place := by
  rw [h.place_edge (hij.trans hj), h.place_edge hj]
  have hstep := place_mul_natCast_le h.width_finite h.width_plus hij (hj.trans h.bins_le)
  exact nearestUnits_one_mono (Int.add_le_add_left hstep _)

/-- Where a multiple of the width is nothing, the edge is the lower end. -/
theorem Regular.place_edge_of_step (h : b.Regular) (hi : i ≤ b.bins)
    (hstep : (b.width * (i : Binary64)).place = 0) : (b.edge i).place = b.low.place := by
  rw [h.place_edge hi, hstep, add_zero]
  exact nearestUnits_position (position?_place h.low_finite)

theorem Regular.place_edge_zero (h : b.Regular) : (b.edge 0).place = b.low.place := by
  refine h.place_edge_of_step (Nat.zero_le _) ?_
  rw [h.place_step (Nat.zero_le _), Nat.cast_zero, mul_zero, nearestUnits_zero]

theorem Regular.place_edge_of_width (h : b.Regular) (hwidth : b.width.place = 0) (hi : i ≤ b.bins) :
    (b.edge i).place = b.low.place := by
  refine h.place_edge_of_step hi ?_
  rw [h.place_step hi, hwidth, zero_mul, nearestUnits_zero]

end

/-! ## Bins over a range -/

/-- Bins that do not overflow and divide the range up to a highest value. The width is the quotient
as it is rounded, so the last edge need not be that value. -/
structure Divides (b : Binning Binary64) (high : Binary64) : Prop extends b.Regular where
  bins_pos : 0 < b.bins
  high_finite : high.isFinite = true
  low_le : b.low.place ≤ high.place
  width_eq : b.width = (high - b.low) / (b.bins : Binary64)

theorem divides_ofValues {values : List Binary64} (hvalues : ∀ v ∈ values, v.isFinite = true)
    {bins : Nat} (hbins : 1 ≤ bins) (hmax : bins ≤ 2 ^ 53)
    (hlast : ((ofValues bins values).edge bins).isFinite = true) :
    (ofValues bins values).Divides (binningRange values).2 :=
  have h := spans_binningRange hvalues
  { regular_of_last hmax h.low_finite (isPlus_width bins hvalues) hlast with
    bins_pos := hbins
    high_finite := h.high_finite
    low_le := h.le
    width_eq := rfl }

section

variable {b : Binning Binary64} {high : Binary64}

theorem Divides.difference (h : b.Divides high) : (high - b.low).isFinite = true :=
  isFinite_of_div_left (h.width_eq ▸ h.width_finite)

theorem Divides.span_nonneg (h : b.Divides high) : (0 : ℚ) ≤ high.place - b.low.place :=
  sub_nonneg.mpr (by exact_mod_cast h.low_le)

theorem Divides.difference_nonneg (h : b.Divides high) : 0 ≤ (high - b.low).place := by
  rw [place_sub h.high_finite h.low_finite]
  exact nearestUnits_nonneg (sub_nonneg.mpr h.low_le) 1

theorem Divides.abs_difference_sub_le (h : b.Divides high) :
    |((high - b.low).place : ℚ) - (high.place - b.low.place)| ≤
      (high.place - b.low.place) * roundoff := by
  have herror := abs_place_sub_sub_le h.high_finite h.low_finite h.difference
  rwa [abs_of_nonneg h.span_nonneg] at herror

/-- All bins together miss the difference by half a unit each, at most, and the usual part of it.
The half units are what can count, where the width is a few units only. -/
theorem Divides.abs_width_sub_le (h : b.Divides high) :
    |(b.width.place : ℚ) * b.bins - (high - b.low).place| ≤
      (high - b.low).place * roundoff + b.bins / 2 := by
  have hbins : (0 : ℚ) < b.bins := by exact_mod_cast h.bins_pos
  have hnonneg : (0 : ℚ) ≤ (high - b.low).place := by exact_mod_cast h.difference_nonneg
  have herror :=
    abs_place_div_sub_le h.difference h.bins_pos h.bins_le (h.width_eq ▸ h.width_finite)
  rw [← h.width_eq, abs_of_nonneg hnonneg] at herror
  calc
    |(b.width.place : ℚ) * b.bins - (high - b.low).place|
      = |(b.width.place : ℚ) - (high - b.low).place / b.bins| * b.bins := by
        rw [← abs_of_pos hbins, ← abs_mul, abs_of_pos hbins, sub_mul, div_mul_cancel₀ _ hbins.ne']
    _ ≤ ((high - b.low).place / b.bins * roundoff + 1 / 2) * b.bins :=
        mul_le_mul_of_nonneg_right herror hbins.le
    _ = (high - b.low).place * roundoff + b.bins / 2 := by field_simp

theorem Regular.abs_step_sub_le (h : b.Regular) {i : Nat} (hi : i ≤ b.bins) :
    |((b.width * (i : Binary64)).place : ℚ) - b.width.place * i| ≤
      b.width.place * i * roundoff := by
  have hnonneg : (0 : ℚ) ≤ b.width.place * i :=
    mul_nonneg (by exact_mod_cast h.width_nonneg) (Nat.cast_nonneg i)
  have herror := abs_place_mul_sub_le h.width_finite (hi.trans h.bins_le) (h.step_finite i hi)
  rwa [abs_of_nonneg hnonneg] at herror

theorem Divides.bins_le_width (h : b.Divides high) (hpos : 0 < b.width.place) :
    (1 : ℚ) ≤ b.bins ∧ (b.bins : ℚ) ≤ b.width.place * b.bins :=
  ⟨by exact_mod_cast h.bins_pos,
    le_mul_of_one_le_left (Nat.cast_nonneg _) (by exact_mod_cast hpos)⟩

theorem Divides.low_lt_high (h : b.Divides high) (hpos : 0 < b.width.place) :
    b.low.place < high.place := by
  obtain ⟨hbins, hunit⟩ := h.bins_le_width hpos
  have hdifference := (abs_le.mp h.abs_difference_sub_le).2
  have hwidth := (abs_le.mp h.abs_width_sub_le).2
  have : (b.low.place : ℚ) < high.place := by
    unfold roundoff at hdifference hwidth
    linarith
  exact_mod_cast this

/-- However small the width is: if it is not zero, the bins reach over more than half of the
range. -/
theorem Divides.span_lt (h : b.Divides high) (hpos : 0 < b.width.place) :
    (high.place - b.low.place : ℚ) < 2 * (b.width * (b.bins : Binary64)).place := by
  obtain ⟨hbins, hunit⟩ := h.bins_le_width hpos
  have hdifference := (abs_le.mp h.abs_difference_sub_le).1
  have hwidth := (abs_le.mp h.abs_width_sub_le).1
  have hstep := (abs_le.mp (h.abs_step_sub_le le_rfl)).1
  have hspan := h.span_nonneg
  unfold roundoff at hdifference hwidth hstep
  linarith

/-- **Bins that are not empty do not end where they begin.** The exact end of the last bin is nearer
to the highest value than to the lowest one, and so is not rounded to the lowest one. -/
theorem Divides.low_lt_last (h : b.Divides high) (hpos : 0 < b.width.place) :
    b.low.place < (b.edge b.bins).place := by
  have hle : b.low.place ≤ (b.edge b.bins).place :=
    h.place_edge_zero.symm.trans_le (h.place_edge_mono (Nat.zero_le _) le_rfl)
  refine lt_of_le_of_ne hle fun heq => ?_
  have hspan := h.span_lt hpos
  have hsum :=
    position?_add (signed_place h.low_finite) (signed_place (h.step_finite b.bins le_rfl))
  have hedge := (h.place_edge le_rfl).symm.trans heq.symm
  by_cases hreach : high.place ≤ b.low.place + (b.width * (b.bins : Binary64)).place
  · have hhigh := nearestUnits_one_mono hreach
    rw [nearestUnits_position (position?_place h.high_finite), hedge] at hhigh
    exact absurd hhigh (not_le.mpr (h.low_lt_high hpos))
  · have hnear := abs_nearestUnits_sub_le_of_signed Nat.one_pos (signed_place h.high_finite)
      (natAbs_nearestUnits_lt hsum (h.edge_finite b.bins le_rfl))
    rw [hedge, Nat.cast_one, div_one] at hnear
    push_cast at hnear
    have hshort : (b.low.place + (b.width * (b.bins : Binary64)).place : ℚ) < high.place := by
      exact_mod_cast not_le.mp hreach
    have hnonneg := h.span_nonneg
    rw [abs_of_nonpos (by linarith), abs_of_nonneg (by linarith)] at hnear
    linarith

end

/-! ## The edges as a list -/

theorem Regular.pairwise_edges {b : Binning Binary64} (h : b.Regular) :
    b.edges.Pairwise fun e f => e.le f = true := by
  unfold edges
  rw [List.pairwise_map]
  refine List.pairwise_lt_range.imp_of_mem fun {i j} _ hj hij => ?_
  have hj' : j ≤ b.bins := Nat.lt_succ_iff.mp (List.mem_range.mp hj)
  rw [le_eq (h.edge_finite i (hij.le.trans hj')) (h.edge_finite j hj')]
  exact decide_eq_true (h.place_edge_mono hij.le hj')

end Binning

end Beamline
