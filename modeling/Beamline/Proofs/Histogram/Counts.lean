import Mathlib.Tactic
import Mathlib.Algebra.BigOperators.Group.Finset.Basic
import Beamline.Beam.Histogram

/-!
# Counts — what holds of bins in any arithmetic

An index is clamped below the number of bins, so each value is counted once, whatever its quotient
has come to. Nothing here asks what the quotients are: neither the exact reading of a histogram nor
the binary64 one needs more to know that its counts add up.
-/

set_option autoImplicit false

namespace Beamline

open scoped BigOperators

section

variable {α : Type} [Quantity α]

namespace Binning

variable {b : Binning α} {i : Nat}

/-! ## Edges -/

theorem mem_edges {e : α} : e ∈ b.edges ↔ ∃ i ≤ b.bins, b.edge i = e := by
  simp [edges]

theorem head?_edges (b : Binning α) : b.edges.head? = some (b.edge 0) := by
  simp [edges, List.head?_range]

theorem getLast?_edges (b : Binning α) : b.edges.getLast? = some (b.edge b.bins) := by
  simp [edges, List.range_succ]

/-! ## Counts -/

theorem index_lt (hbins : 0 < b.bins) (v : α) : b.index v < b.bins := by
  have hle : b.index v ≤ b.bins - 1 := Nat.min_le_right _ _
  omega

theorem length_counts (values : List α) : (b.counts values).length = b.bins := by
  simp [counts]

theorem getElem?_counts (hi : i < b.bins) (values : List α) :
    (b.counts values)[i]? = some ((values.map b.index).count i) := by
  unfold counts
  rw [List.getElem?_map, List.getElem?_range hi]
  rfl

/-- Every value is counted once. -/
theorem sum_count_index (hbins : 0 < b.bins) (values : List α) :
    ∑ i ∈ Finset.range b.bins, (values.map b.index).count i = values.length := by
  have hlt : ∀ i ∈ values.map b.index, i < b.bins := by
    intro i hi
    obtain ⟨v, -, rfl⟩ := List.mem_map.mp hi
    exact index_lt hbins v
  have hsum := Multiset.sum_count_eq_card (s := Finset.range b.bins)
    (m := (values.map b.index : Multiset Nat)) (by simpa using hlt)
  simpa using hsum

/-- The counts add up to the number of values. -/
theorem sum_counts (hbins : 0 < b.bins) (values : List α) : (b.counts values).sum = values.length :=
  sum_count_index hbins values

end Binning

/-! ## From bins to a histogram -/

namespace Histogram

/-- The histogram that bins and their counts make. -/
def ofBinning (b : Binning α) (values : List α) : Histogram α where
  edges := b.edges
  density := (b.counts values).map fun c : Nat => (c : α) / ((values.length : Nat) * b.width)

theorem ofValues_eq (values : List α) {bins : Nat} (hbins : 1 ≤ bins) :
    Histogram.ofValues values bins =
      .ok (ofBinning (Binning.ofValues bins (finiteValues values)) (finiteValues values)) := by
  have hpos : 0 < (Binning.ofValues bins (finiteValues values)).bins := hbins
  have hsum := Binning.sum_counts hpos (finiteValues values)
  have hne : bins ≠ 0 := by omega
  rw [List.sum_eq_foldr] at hsum
  unfold Histogram.ofValues density? ofBinning
  rw [if_neg hne]
  dsimp only
  rw [hsum]

end Histogram

end

end Beamline
