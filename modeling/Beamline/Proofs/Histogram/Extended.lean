import Beamline.Proofs.Histogram.Exact

/-!
# Histograms of any values — what is not finite is left out

Values that are read from a file need not be finite. `Extended` is the rational numbers with one
value more, which stands for whatever is none of them; it is what any operation gives that has no
rational result. Read over these, the formulas of the histogram drop that value first and never make
it again, because the width of a bin and the number of values are not zero. So they come to the
histogram of the rational numbers among the values (`ofValues_isReference`).
-/

set_option autoImplicit false

namespace Beamline

/-- A rational number, or a value that is none. One such value is enough: infinities and NaN are
left out alike, whatever they are. -/
inductive Extended where
  | finite (q : ℚ)
  | other
deriving DecidableEq

namespace Extended

/-- An operation on rational numbers, which gives a number only from two of them. -/
def lift (f : ℚ → ℚ → ℚ) : Extended → Extended → Extended
  | finite a, finite b => finite (f a b)
  | _, _ => other

instance : Add Extended := ⟨lift (· + ·)⟩
instance : Sub Extended := ⟨lift (· - ·)⟩
instance : Mul Extended := ⟨lift (· * ·)⟩

instance : Div Extended where
  div
    | finite a, finite b => if b = 0 then other else finite (a / b)
    | _, _ => other

instance : Neg Extended where
  neg
    | finite a => finite (-a)
    | other => other

instance : NatCast Extended := ⟨fun n => finite n⟩

instance : OfScientific Extended where
  ofScientific mantissa negative exponent :=
    finite (OfScientific.ofScientific mantissa negative exponent)

instance : Arithmetic Extended where

instance : Quantity Extended where
  isFinite
    | finite _ => true
    | other => false
  below
    | finite a, finite b => decide (a < b)
    | _, _ => false
  wholePart
    | finite a => a.floor.toNat
    | other => 0

/-- The rational number that a value is, if it is one. -/
def number? : Extended → Option ℚ
  | finite q => some q
  | other => none

/-- The rational numbers among values. -/
def numbers (values : List Extended) : List ℚ := values.filterMap number?

/-- Division is the one operation that can leave the rational numbers. The divisors of a histogram
are the number of bins, the width of one and the number of values. -/
theorem finite_div {a b : ℚ} (h : b ≠ 0) : finite a / finite b = finite (a / b) := if_neg h

/-- Leaving out what is not finite leaves the rational numbers, in their order. -/
theorem finiteValues_eq (values : List Extended) :
    finiteValues values = (numbers values).map finite := by
  induction values with
  | nil => rfl
  | cons v values ih =>
    cases v with
    | other => exact ih
    | finite q => exact congrArg (finite q :: ·) ih

theorem mem_numbers {values : List Extended} {q : ℚ} : q ∈ numbers values ↔ finite q ∈ values := by
  unfold numbers
  rw [List.mem_filterMap]
  constructor
  · intro h
    obtain ⟨v, hv, hq⟩ := h
    cases v with
    | other => cases hq
    | finite r =>
      cases hq
      exact hv
  · intro h
    exact ⟨finite q, h, rfl⟩

/-! ## Each formula over rational numbers -/

/-- The range is found by comparing, and rational numbers compare among the extended ones as they do
by themselves. -/
theorem foldl_extremes_finite (values : List ℚ) (a b : ℚ) :
    (values.map finite).foldl (fun (low, high) v =>
        (if Quantity.below low v then low else v, if Quantity.below v high then high else v))
        (finite a, finite b) =
      Prod.map finite finite (values.foldl (fun (low, high) v =>
        (if Quantity.below low v then low else v, if Quantity.below v high then high else v))
        (a, b)) := by
  induction values generalizing a b with
  | nil => rfl
  | cons v values ih =>
    have hlow : (if Quantity.below (finite a) (finite v) then finite a else finite v) =
        finite (if Quantity.below a v then a else v) := (apply_ite finite _ a v).symm
    have hhigh : (if Quantity.below (finite v) (finite b) then finite b else finite v) =
        finite (if Quantity.below v b then b else v) := (apply_ite finite _ b v).symm
    rw [List.map_cons, List.foldl_cons, List.foldl_cons]
    dsimp only
    rw [hlow, hhigh, ih]

theorem extremes?_finite (values : List ℚ) :
    extremes? (values.map finite) = (extremes? values).map (Prod.map finite finite) := by
  cases values with
  | nil => rfl
  | cons v values => exact congrArg some (foldl_extremes_finite values v v)

theorem binningRange_finite (values : List ℚ) :
    binningRange (values.map finite) = Prod.map finite finite (binningRange values) := by
  unfold binningRange
  rw [extremes?_finite]
  cases extremes? values with
  | none => rfl
  | some range =>
    obtain ⟨low, high⟩ := range
    exact (apply_ite (Prod.map finite finite) _ (low, high) (low - 0.5, high + 0.5)).symm

end Extended

namespace Binning

/-- Rational bins among the extended numbers. Each formula below commutes with this, so the
histogram is computed over rational numbers in the end. -/
def extend (b : Binning ℚ) : Binning Extended := ⟨.finite b.low, .finite b.width, b.bins⟩

theorem ofValues_finite {bins : Nat} (hbins : 1 ≤ bins) (values : List ℚ) :
    ofValues bins (values.map Extended.finite) = (ofValues bins values).extend := by
  have hne : (bins : ℚ) ≠ 0 := by exact_mod_cast Nat.ne_of_gt hbins
  unfold ofValues
  rw [Extended.binningRange_finite]
  exact congrArg (Binning.mk _ · _) (Extended.finite_div hne)

theorem edges_extend (b : Binning ℚ) : b.extend.edges = b.edges.map Extended.finite := by
  unfold edges
  rw [List.map_map]
  rfl

/-- A number is in the same bin either way. This is where the width must not be zero. -/
theorem index_extend {b : Binning ℚ} (h : b.width ≠ 0) (v : ℚ) :
    b.extend.index (.finite v) = b.index v := by
  have hquotient : (Extended.finite v - b.extend.low) / b.extend.width =
      .finite ((v - b.low) / b.width) := Extended.finite_div h
  unfold index
  rw [hquotient]
  rfl

theorem counts_extend {b : Binning ℚ} (h : b.width ≠ 0) (values : List ℚ) :
    b.extend.counts (values.map Extended.finite) = b.counts values := by
  have hindices : (values.map Extended.finite).map b.extend.index = values.map b.index := by
    rw [List.map_map]
    exact List.map_congr_left fun v _ => index_extend h v
  unfold counts
  rw [hindices]
  rfl

end Binning

namespace Histogram

open Extended (numbers)

/-- Where some value is finite, the histogram is that of the finite ones. -/
theorem density?_eq {values : List Extended} {bins : Nat} (hbins : 1 ≤ bins)
    (h : numbers values ≠ []) :
    let r := ofBinning (Binning.ofValues bins (numbers values)) (numbers values)
    density? values bins = some ⟨r.edges.map .finite, r.density.map .finite⟩ := by
  intro r
  have hcovers := Binning.covers_ofValues hbins h
  have hwidth : (Binning.ofValues bins (numbers values)).width ≠ 0 := hcovers.width_pos.ne'
  have hcount : ((numbers values).length : ℚ) ≠ 0 := by
    exact_mod_cast mt List.length_eq_zero_iff.mp h
  unfold density?
  rw [if_neg (by omega), Extended.finiteValues_eq]
  dsimp only
  rw [Binning.ofValues_finite hbins, Binning.counts_extend hwidth, Binning.edges_extend,
    Binning.foldr_counts hcovers]
  have hdensity : ∀ c : Nat, (c : Extended) / (((numbers values).length : Nat) *
      (Binning.ofValues bins (numbers values)).extend.width) =
        .finite (c / ((numbers values).length * (Binning.ofValues bins (numbers values)).width)) :=
    fun c => Extended.finite_div (mul_ne_zero hcount hwidth)
  simp only [hdensity]
  exact congrArg (some <| Histogram.mk _ ·) (List.map_map ..).symm

/-- **Over exact numbers the histogram is the reference one.** Values that are not finite are
dropped. The edges divide the range of the others evenly, the densities are the shares of the values
between them, and the area is one. -/
theorem ofValues_isReference (values : List Extended) {bins : Nat} (hbins : 1 ≤ bins)
    (hfinite : ∃ q, Extended.finite q ∈ values) :
    ∃ (h : Histogram ℚ) (low high : ℚ),
      Histogram.ofValues values bins = .ok ⟨h.edges.map .finite, h.density.map .finite⟩ ∧
        h.IsReference (numbers values) bins low high := by
  obtain ⟨q, hq⟩ := hfinite
  have hne : numbers values ≠ [] := List.ne_nil_of_mem (Extended.mem_numbers.mpr hq)
  refine ⟨_, _, _, ?_, isReference_ofValues hbins hne⟩
  unfold Histogram.ofValues
  rw [density?_eq hbins hne]

/-- Two numbers in two bins, among values that are none. -/
theorem ofValues_isReference_two :
    ∃ (h : Histogram ℚ) (low high : ℚ),
      Histogram.ofValues [Extended.finite 0, .other, .finite 1, .other] 2 =
        .ok ⟨h.edges.map .finite, h.density.map .finite⟩ ∧
        h.IsReference [0, 1] 2 low high :=
  ofValues_isReference [.finite 0, .other, .finite 1, .other] (by decide) ⟨0, by decide⟩

end Histogram
end Beamline
