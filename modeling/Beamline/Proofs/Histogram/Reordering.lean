import Beamline.Proofs.Histogram.Counting

/-!
# Reordering — a histogram is of the values, not of their list

The fold over the values takes the last of equal ones, so it finds the same extremes in any order of
the values, except for the sign of a zero. Whether that sign can be seen afterwards is the question
here.

Where all values are equal, the range starts half a unit below them, and the sum has swallowed the
sign. Where they are not, the width is a difference between two places and has never seen it
(`binningRange_reordered`). What is left are the edges and the indices: an edge is the lower end
plus a multiple of a width that has no minus sign, so it comes out the same; and an index is a whole
part, which is zero for either zero.
-/

set_option autoImplicit false

namespace Beamline

open Binary64

/-! ## The range -/

/-- Two ranges that are one, up to the signs of zeros. -/
inductive SameRange : Binary64 × Binary64 → Binary64 × Binary64 → Prop
  | refl (range : Binary64 × Binary64) : SameRange range range
  | places {low low' high high' : Binary64} (hlow : low.place = low'.place)
      (hhigh : high.place = high'.place) (hlt : low.place < high.place) :
      SameRange (low, high) (low', high')

section

variable {values values' : List Binary64}

theorem half_ne_zero_minus : (0.5 : Binary64) ≠ zero .minus ∧ -(0.5 : Binary64) ≠ zero .minus := by
  decide +kernel

theorem binningRange_reordered (hvalues : ∀ v ∈ values, v.isFinite = true)
    (hperm : values.Perm values') :
    SameRange (binningRange values) (binningRange values') := by
  have hvalues' : ∀ v ∈ values', v.isFinite = true := fun v hv => hvalues v (hperm.mem_iff.mpr hv)
  rcases binningRange_cases hvalues with ⟨rfl, -⟩ | ⟨low, high, h, hcases⟩
  · rw [List.nil_perm.mp hperm]
    exact .refl _
  rcases binningRange_cases hvalues' with ⟨rfl, -⟩ | ⟨low', high', h', hcases'⟩
  · exact absurd (hperm.mem_iff.mp h.low_mem) List.not_mem_nil
  obtain ⟨hlow, hhigh⟩ := h.place_eq h' (fun v hv => h.within v (hperm.mem_iff.mpr hv))
    fun v hv => h'.within v (hperm.mem_iff.mp hv)
  rcases hcases with ⟨hlt, hrange⟩ | ⟨heq, hrange⟩
  · rcases hcases' with ⟨-, hrange'⟩ | ⟨heq', -⟩
    · rw [hrange, hrange']
      exact .places hlow hhigh hlt
    · omega
  · rcases hcases' with ⟨hlt', -⟩ | ⟨-, hrange'⟩
    · omega
    -- Only one value, and half a unit off it the sign of a zero is gone.
    · have hdown : low - 0.5 = low' - 0.5 :=
        add_congr_left (position?_place (hvalues low h.low_mem))
          (hlow ▸ position?_place (hvalues' low' h'.low_mem)) half_ne_zero_minus.2
      have hup : high + 0.5 = high' + 0.5 :=
        add_congr_left (position?_place (hvalues high h.high_mem))
          (hhigh ▸ position?_place (hvalues' high' h'.high_mem)) half_ne_zero_minus.1
      rw [hrange, hrange', hdown, hup]
      exact .refl _

/-! ## The bins -/

/-- Bins that are the same as far as a histogram shows. -/
structure SameBins (b b' : Binning Binary64) : Prop where
  bins : b.bins = b'.bins
  width : b.width = b'.width
  edge : ∀ i, b.edge i = b'.edge i
  index : ∀ v : Binary64, v.isFinite = true → b.index v = b'.index v

theorem place_div_congr {x y : Binary64} {p : ℤ} (hx : x.position? = some p)
    (hy : y.position? = some p) (w : Binary64) : (x / w).place = (y / w).place := by
  by_cases hp : p = 0
  · subst hp
    rw [place_div_of_zero hx, place_div_of_zero hy]
  · rw [eq_of_position? hx hy hp]

/-- Bins of one width whose lower ends stand in one place. -/
theorem sameBins_of_low {b b' : Binning Binary64} (hbins : b.bins = b'.bins)
    (hwidth : b.width = b'.width)
    (hplus : b.width.IsPlus) (hfinite : b.low.isFinite = true) (hfinite' : b'.low.isFinite = true)
    (hlow : b.low.place = b'.low.place) : SameBins b b' := by
  refine ⟨hbins, hwidth, fun i => ?_, fun v hv => ?_⟩
  · have hstep : b.width * (i : Binary64) ≠ zero .minus :=
      (hplus.mul (isPlus_natCast i)).ne_zero_minus
    have hsum := add_congr_left (position?_place hfinite) (hlow ▸ position?_place hfinite') hstep
    unfold Binning.edge
    rw [← hwidth]
    exact hsum
  · have hquotient : ((v - b.low) / b.width).place = ((v - b'.low) / b.width).place :=
      place_div_congr (Binning.position?_sub_low hfinite hv)
        (hlow ▸ Binning.position?_sub_low hfinite' hv) b.width
    rw [Binning.index_eq_place, Binning.index_eq_place, ← hwidth, ← hbins, hquotient]

theorem sameBins_ofValues (bins : Nat) (hvalues : ∀ v ∈ values, v.isFinite = true)
    (hperm : values.Perm values') :
    SameBins (Binning.ofValues bins values) (Binning.ofValues bins values') := by
  have hvalues' : ∀ v ∈ values', v.isFinite = true := fun v hv => hvalues v (hperm.mem_iff.mpr hv)
  have hspans := spans_binningRange hvalues
  have hspans' := spans_binningRange hvalues'
  have hplus := isPlus_width bins hvalues
  have hsame := binningRange_reordered hvalues hperm
  unfold Binning.ofValues at hplus ⊢
  generalize binningRange values = range at *
  generalize binningRange values' = range' at *
  cases hsame with
  | refl => exact ⟨rfl, rfl, fun _ => rfl, fun _ _ => rfl⟩
  | @places low low' high high' hlow hhigh hlt =>
    have hwidth : (high - low) / (bins : Binary64) = (high' - low') / (bins : Binary64) := by
      rw [sub_of_ne (signed_place hspans.high_finite) (signed_place hspans.low_finite) hlt.ne',
        sub_of_ne (signed_place hspans'.high_finite) (signed_place hspans'.low_finite)
          (by dsimp only; omega)]
      dsimp only
      rw [hlow, hhigh]
    exact sameBins_of_low rfl hwidth hplus hspans.low_finite hspans'.low_finite hlow

/-! ## The histogram -/

theorem SameBins.counts_eq {b b' : Binning Binary64} (h : SameBins b b')
    (hvalues : ∀ v ∈ values, v.isFinite = true) (hperm : values.Perm values') :
    b.counts values = b'.counts values' := by
  have hindices : (values.map b.index).Perm (values'.map b'.index) := by
    rw [List.map_congr_left fun v hv => h.index v (hvalues v hv)]
    exact hperm.map b'.index
  unfold Binning.counts
  dsimp only
  rw [h.bins]
  exact List.map_congr_left fun i _ => hindices.count_eq i

theorem SameBins.ofBinning_eq {b b' : Binning Binary64} (h : SameBins b b')
    (hvalues : ∀ v ∈ values, v.isFinite = true) (hperm : values.Perm values') :
    Histogram.ofBinning b values = Histogram.ofBinning b' values' := by
  have hedges : b.edges = b'.edges := by
    unfold Binning.edges
    rw [h.bins]
    exact List.map_congr_left fun i _ => h.edge i
  unfold Histogram.ofBinning
  rw [hedges, h.width, h.counts_eq hvalues hperm, hperm.length_eq]

end

/-- **A histogram does not show in which order the values came**, nor what among them was not
finite. -/
theorem Histogram.ofValues_reordered {values values' : List Binary64}
    (hperm : (values.filter Binary64.isFinite).Perm (values'.filter Binary64.isFinite)) {bins : Nat}
    (hbins : 1 ≤ bins) :
    ∃ h, Histogram.ofValues values bins = .ok h ∧ Histogram.ofValues values' bins = .ok h := by
  change (finiteValues values).Perm (finiteValues values') at hperm
  have hfinite := isFinite_of_mem_finiteValues values
  refine ⟨_, Histogram.ofValues_eq values hbins, ?_⟩
  rw [Histogram.ofValues_eq values' hbins]
  exact congrArg Except.ok ((sameBins_ofValues bins hfinite hperm).ofBinning_eq hfinite hperm).symm

theorem Histogram.ofValues_reordered_zeros :
    ∃ h, Histogram.ofValues [zero .minus, ((1 : Nat) : Binary64), zero .plus, nan] 2 = .ok h ∧
      Histogram.ofValues [zero .plus, infinite .minus, ((1 : Nat) : Binary64), zero .minus] 2 =
        .ok h :=
  ofValues_reordered (by decide +kernel) (by decide)

end Beamline
