import Mathlib.Tactic
import Mathlib.Algebra.Order.Floor.Semiring
import Mathlib.Data.Rat.Floor
import Beamline.Proofs.Histogram.Counts

/-!
# Exact histograms — the formulas over rational numbers

Read over rational numbers, a histogram is what its name says. Its edges divide the range of the
values evenly, and its densities are the shares of the values that lie between neighbouring edges,
so that its area is one (`IsReference`).

The program never compares a value with an edge: it cuts a quotient down to its whole part. That
this finds the bin between whose edges the value lies is `index_eq_iff`, and the clamp that the
maximum needs is what closes the last bin.
-/

set_option autoImplicit false

namespace Beamline

open scoped BigOperators

/-! ## What a histogram should be -/

namespace Histogram

/-- A value lies in a bin: between its edges, the lower one included, in the last bin the upper one
too. -/
def InBin (edges : List ℚ) (bins i : Nat) (v : ℚ) : Prop :=
  edges.getD i 0 ≤ v ∧
    if i + 1 = bins then v ≤ edges.getD (i + 1) 0 else v < edges.getD (i + 1) 0

instance (edges : List ℚ) (bins i : Nat) (v : ℚ) : Decidable (InBin edges bins i v) :=
  inferInstanceAs (Decidable (_ ∧ _))

/-- The density histogram of values over so many bins between two bounds. -/
structure IsReference (h : Histogram ℚ) (values : List ℚ) (bins : Nat) (low high : ℚ) : Prop where
  /-- The bounds are the extremes of the values, or half a unit to both sides of the only value. -/
  bounds : ∃ least greatest, IsLeast {v | v ∈ values} least ∧ IsGreatest {v | v ∈ values} greatest ∧
    (low, high) =
      if least = greatest then (least - 1 / 2, greatest + 1 / 2) else (least, greatest)
  length_edges : h.edges.length = bins + 1
  first_edge : h.edges.getD 0 0 = low
  last_edge : h.edges.getD bins 0 = high
  width_pos : 0 < (high - low) / bins
  step : ∀ i < bins, h.edges.getD (i + 1) 0 - h.edges.getD i 0 = (high - low) / bins
  length_density : h.density.length = bins
  count : ∀ i < bins, h.density.getD i 0 * values.length * ((high - low) / bins) =
    values.countP fun v => InBin h.edges bins i v
  area : ∑ i ∈ Finset.range bins,
    h.density.getD i 0 * (h.edges.getD (i + 1) 0 - h.edges.getD i 0) = 1

end Histogram

/-! ## The range -/

section

variable {values : List ℚ}

/-- The program finds both extremes in one pass. Over rational numbers its comparison is a total
order, and the two halves of that pass are the two folds of the library. -/
theorem foldl_extremes (values : List ℚ) (a b : ℚ) :
    values.foldl (fun (low, high) v =>
        (if Quantity.below low v then low else v, if Quantity.below v high then high else v))
          (a, b) =
      (values.foldl min a, values.foldl max b) := by
  induction values generalizing a b with
  | nil => rfl
  | cons v values ih =>
    have hmin : (if Quantity.below a v then a else v) = min a v := by
      show (if decide (a < v) = true then a else v) = min a v
      rcases lt_or_ge a v with h | h
      · simp [h, h.le]
      · simp [h, not_lt.mpr h]
    have hmax : (if Quantity.below v b then b else v) = max b v := by
      show (if decide (v < b) = true then b else v) = max b v
      rcases lt_or_ge v b with h | h
      · simp [h, h.le]
      · simp [h, not_lt.mpr h]
    rw [List.foldl_cons, List.foldl_cons, List.foldl_cons, ← ih]
    dsimp only
    rw [hmin, hmax]

theorem exists_extremes? (h : values ≠ []) :
    ∃ least greatest, extremes? values = some (least, greatest) ∧
      IsLeast {v | v ∈ values} least ∧ IsGreatest {v | v ∈ values} greatest := by
  obtain ⟨v, vs, rfl⟩ := List.exists_cons_of_ne_nil h
  refine ⟨vs.foldl min v, vs.foldl max v, ?_, ?_, ?_⟩
  · exact congrArg some (foldl_extremes vs v v)
  · exact List.min?_eq_some_iff.mp List.min?_cons'
  · exact List.max?_eq_some_iff.mp List.max?_cons'

/-- The range is as wide as the values, or one unit where they are all the same. The program asks
whether the least is below the greatest; that they are the same is the other case only because NaN
is not among rational numbers. -/
theorem exists_binningRange (h : values ≠ []) :
    ∃ least greatest, IsLeast {v | v ∈ values} least ∧ IsGreatest {v | v ∈ values} greatest ∧
      binningRange values =
        if least = greatest then (least - 1 / 2, greatest + 1 / 2) else (least, greatest) := by
  obtain ⟨least, greatest, hextremes, hleast, hgreatest⟩ := exists_extremes? h
  refine ⟨least, greatest, hleast, hgreatest, ?_⟩
  have hle : least ≤ greatest := hleast.2 hgreatest.1
  unfold binningRange
  rw [hextremes]
  show (if decide (least < greatest) = true then (least, greatest) else _) = _
  by_cases heq : least = greatest
  · have hnot : ¬ decide (least < greatest) = true := by simp [heq]
    rw [if_neg hnot, if_pos heq]
    norm_num
  · have hlt : decide (least < greatest) = true := decide_eq_true (lt_of_le_of_ne hle heq)
    rw [if_pos hlt, if_neg heq]

theorem binningRange_spec (h : values ≠ []) :
    (binningRange values).1 < (binningRange values).2 ∧
      ∀ v ∈ values, (binningRange values).1 ≤ v ∧ v ≤ (binningRange values).2 := by
  obtain ⟨least, greatest, hleast, hgreatest, heq⟩ := exists_binningRange h
  have hle : least ≤ greatest := hleast.2 hgreatest.1
  rw [heq]
  split
  · refine ⟨by linarith, fun v hv => ?_⟩
    have hlow := hleast.2 hv
    have hhigh := hgreatest.2 hv
    constructor <;> linarith
  · next hne => exact ⟨lt_of_le_of_ne hle hne, fun v hv => ⟨hleast.2 hv, hgreatest.2 hv⟩⟩

end

/-! ## The bins -/

namespace Binning

variable {b : Binning ℚ} {v : ℚ} {i : Nat}

theorem edge_succ (b : Binning ℚ) (i : Nat) : b.edge (i + 1) - b.edge i = b.width := by
  show b.low + b.width * ((i + 1 : Nat) : ℚ) - (b.low + b.width * (i : ℚ)) = b.width
  push_cast
  ring

theorem getD_edges (h : i ≤ b.bins) : b.edges.getD i 0 = b.edge i := by
  unfold edges
  rw [List.getD_eq_getElem?_getD, List.getElem?_map, List.getElem?_range (by omega)]
  rfl

theorem index_eq (b : Binning ℚ) (v : ℚ) :
    b.index v = min ⌊(v - b.low) / b.width⌋₊ (b.bins - 1) := rfl

/-- **A value is counted in the bin between whose edges it lies.** In the last bin the upper edge is
not asked for: there the index is clamped. -/
theorem index_eq_iff (hwidth : 0 < b.width) (hi : i < b.bins) (hlow : b.low ≤ v) :
    b.index v = i ↔ b.edge i ≤ v ∧ (i + 1 = b.bins ∨ v < b.edge (i + 1)) := by
  have hquotient : 0 ≤ (v - b.low) / b.width := div_nonneg (by linarith) hwidth.le
  have hedge : ∀ n : Nat, b.edge n ≤ v ↔ n ≤ ⌊(v - b.low) / b.width⌋₊ := by
    intro n
    rw [Nat.le_floor_iff hquotient, le_div_iff₀ hwidth]
    show b.low + b.width * (n : ℚ) ≤ v ↔ (n : ℚ) * b.width ≤ v - b.low
    constructor <;> intro h <;> linarith
  rw [index_eq, hedge, ← not_le, hedge]
  omega

/-- Lying in a bin, by the edges of the binning in the place of the list of edges. -/
theorem inBin_edges_iff (hi : i < b.bins) :
    Histogram.InBin b.edges b.bins i v ↔
      b.edge i ≤ v ∧ if i + 1 = b.bins then v ≤ b.edge (i + 1) else v < b.edge (i + 1) := by
  unfold Histogram.InBin
  rw [getD_edges (by omega), getD_edges (by omega)]

/-! ## Counting -/

variable {values : List ℚ}

/-- The range of the bins holds all of the values. Without that a value could be counted in the
first or the last bin and lie in none. -/
structure Covers (b : Binning ℚ) (values : List ℚ) : Prop where
  bins_pos : 0 < b.bins
  width_pos : 0 < b.width
  within : ∀ v ∈ values, b.low ≤ v ∧ v ≤ b.edge b.bins

theorem getD_counts (hi : i < b.bins) :
    (b.counts values).getD i 0 = (values.map b.index).count i := by
  rw [List.getD_eq_getElem?_getD, getElem?_counts hi, Option.getD_some]

/-- What is counted in a bin are the values that lie in it. The maximum is counted in the last bin
by the clamp, and lies in it as that one is closed. -/
theorem count_index (h : b.Covers values) (hi : i < b.bins) :
    (values.map b.index).count i =
      values.countP fun v => Histogram.InBin b.edges b.bins i v := by
  rw [List.count_eq_countP, List.countP_map]
  refine List.countP_congr fun v hv => ?_
  obtain ⟨hlow, hhigh⟩ := h.within v hv
  rw [Function.comp_apply, beq_iff_eq, decide_eq_true_iff, inBin_edges_iff hi,
    index_eq_iff h.width_pos hi hlow]
  by_cases hlast : i + 1 = b.bins
  · rw [if_pos hlast, hlast]
    simp [hhigh]
  · rw [if_neg hlast]
    simp [hlast]

theorem foldr_counts (h : b.Covers values) :
    (b.counts values).foldr (· + ·) 0 = values.length :=
  sum_count_index h.bins_pos values

/-- The last edge is the end of the range. Over rational numbers this is plain algebra; over
binary64 it is what goes wrong first. -/
theorem edge_bins_ofValues {bins : Nat} (hbins : 1 ≤ bins) (values : List ℚ) :
    (ofValues bins values).edge bins = (binningRange values).2 := by
  have hne : (bins : ℚ) ≠ 0 := by exact_mod_cast Nat.ne_of_gt hbins
  show (binningRange values).1 +
    ((binningRange values).2 - (binningRange values).1) / (bins : ℚ) * (bins : ℚ) = _
  rw [div_mul_cancel₀ _ hne, add_sub_cancel]

/-- The bins for values cover them. -/
theorem covers_ofValues {bins : Nat} (hbins : 1 ≤ bins) (h : values ≠ []) :
    (ofValues bins values).Covers values := by
  obtain ⟨hlt, hwithin⟩ := binningRange_spec h
  refine ⟨hbins, ?_, fun v hv => ⟨(hwithin v hv).1, ?_⟩⟩
  · exact div_pos (sub_pos.mpr hlt) (by exact_mod_cast hbins)
  · exact (hwithin v hv).2.trans_eq (edge_bins_ofValues hbins values).symm

end Binning

/-! ## From bins to a histogram -/

namespace Histogram

variable {b : Binning ℚ} {values : List ℚ} {i : Nat}

theorem getD_density (hi : i < b.bins) :
    (ofBinning b values).density.getD i 0 =
      (((b.counts values).getD i 0 : Nat) : ℚ) / (values.length * b.width) := by
  have hlength := Binning.length_counts (b := b) values
  unfold ofBinning
  dsimp only
  rw [List.getD_eq_getElem?_getD, List.getD_eq_getElem?_getD, List.getElem?_map,
    List.getElem?_eq_getElem (by omega)]
  rfl

/-- Any bins that cover some values make their reference histogram. The area is one because every
value is counted once: the shares add up to all of them. -/
theorem isReference_ofBinning (h : b.Covers values) (hne : values ≠ [])
    (hbounds : ∃ least greatest, IsLeast {v | v ∈ values} least ∧
      IsGreatest {v | v ∈ values} greatest ∧ (b.low, b.edge b.bins) =
        if least = greatest then (least - 1 / 2, greatest + 1 / 2) else (least, greatest)) :
    (ofBinning b values).IsReference values b.bins b.low (b.edge b.bins) := by
  have hbins : (b.bins : ℚ) ≠ 0 := by exact_mod_cast h.bins_pos.ne'
  have hcount : (values.length : ℚ) ≠ 0 := by
    exact_mod_cast mt List.length_eq_zero_iff.mp hne
  have hw : b.width ≠ 0 := h.width_pos.ne'
  have hwidth : (b.edge b.bins - b.low) / b.bins = b.width := by
    show (b.low + b.width * (b.bins : ℚ) - b.low) / (b.bins : ℚ) = b.width
    rw [add_sub_cancel_left, mul_div_cancel_right₀ _ hbins]
  have hstep : ∀ i < b.bins, b.edges.getD (i + 1) 0 - b.edges.getD i 0 = b.width := by
    intro i hi
    rw [Binning.getD_edges hi, Binning.getD_edges hi.le, Binning.edge_succ]
  refine {
    bounds := hbounds
    length_edges := by simp [ofBinning, Binning.edges]
    first_edge := ?_
    last_edge := Binning.getD_edges le_rfl
    width_pos := hwidth ▸ h.width_pos
    step := fun i hi => hwidth ▸ hstep i hi
    length_density := by simp [ofBinning, Binning.counts]
    count := fun i hi => ?_
    area := ?_ }
  · show b.edges.getD 0 0 = b.low
    rw [Binning.getD_edges (Nat.zero_le _)]
    show b.low + b.width * ((0 : Nat) : ℚ) = b.low
    rw [Nat.cast_zero, mul_zero, add_zero]
  · rw [getD_density hi, Binning.getD_counts hi, Binning.count_index h hi, hwidth]
    show _ = ((values.countP fun v => InBin b.edges b.bins i v : Nat) : ℚ)
    field_simp
  · have hshare : ∀ i ∈ Finset.range b.bins,
        (ofBinning b values).density.getD i 0 * (b.edges.getD (i + 1) 0 - b.edges.getD i 0) =
          ((values.map b.index).count i : ℚ) / values.length := by
      intro i hi
      have hlt := Finset.mem_range.mp hi
      rw [getD_density hlt, Binning.getD_counts hlt, hstep i hlt]
      field_simp
    refine (Finset.sum_congr rfl hshare).trans ?_
    rw [← Finset.sum_div, ← Nat.cast_sum, Binning.sum_count_index h.bins_pos, div_self hcount]

/-- **The histogram of rational numbers is the reference one.** -/
theorem isReference_ofValues {bins : Nat} (hbins : 1 ≤ bins) (h : values ≠ []) :
    (ofBinning (Binning.ofValues bins values) values).IsReference values bins
      (binningRange values).1 (binningRange values).2 := by
  have hedge : (Binning.ofValues bins values).edge (Binning.ofValues bins values).bins =
      (binningRange values).2 := Binning.edge_bins_ofValues hbins values
  have hreference := isReference_ofBinning (Binning.covers_ofValues hbins h) h
  rw [hedge] at hreference
  obtain ⟨least, greatest, hleast, hgreatest, hrange⟩ := exists_binningRange h
  exact hreference ⟨least, greatest, hleast, hgreatest, hrange⟩

end Histogram

end Beamline
