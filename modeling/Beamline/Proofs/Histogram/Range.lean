import Beamline.Beam.Histogram
import Beamline.Proofs.Binary64.Zero
import Beamline.Proofs.Binary64.Neighbours

/-!
# Range — what the bins of binary64 values are laid over

The fold over the values keeps one of two at each step, so the ends of the range are values of the
list: a least one and a greatest one, whichever of several equal ones (`exists_extremes`). If they
stand in one place, the range is widened by half a unit to both sides.

These are rounded sums. They do not overflow, because there is room for half of the widest spacing
above every finite value (`signed_add_of_small`); but for a large value the half may be lost in
them, and the range is then of no width at all. What it never is, is two zeros (`Spans.not_zeros`):
half a unit is not lost in a zero. With that the difference between the ends has no minus sign, and
neither has the width (`isPlus_width`).
-/

set_option autoImplicit false

namespace Beamline

namespace Binary64

/-! ## Half a unit more or less -/

/-- The distance between the largest magnitudes. -/
def widestSpacing : Nat := 2 ^ (overflowBits - 53)

/-- Above every magnitude there is room for the widest spacing. -/
theorem add_widestSpacing_le (m : Magnitude) : m.units + widestSpacing ≤ overflowUnits := by
  have hhalf : 2 ^ (overflowBits - 1) + 2 ^ (overflowBits - 1) = overflowUnits :=
    Nat.two_pow_pred_add_two_pow_pred (by decide)
  have hroom : widestSpacing ≤ 2 ^ (overflowBits - 1) :=
    Nat.pow_le_pow_right Nat.two_pos (by decide)
  by_cases hsmall : m.units < 2 ^ (overflowBits - 1)
  · omega
  · have hne : m.units ≠ 0 := by
      have := Nat.two_pow_pos (overflowBits - 1)
      omega
    have hlog : m.units.log2 + 1 - 53 = overflowBits - 53 := by
      have hlow := (Nat.le_log2 hne).mpr (not_lt.mp hsmall)
      have hhigh : m.units.log2 < overflowBits := (Nat.log2_lt hne).mpr m.bounded
      omega
    have hnext := add_spacing_le m.spaced spacing_dvd_overflowUnits m.bounded
    unfold spacing at hnext
    rw [hlog] at hnext
    exact hnext

theorem roundUnits_add_lt (m : Magnitude) {k : Nat} (hk : 2 * k < widestSpacing) :
    roundUnits (m.units + k) 1 < overflowUnits := by
  have hnear : |(roundUnits (m.units + k) 1 : ℚ) - (m.units + k : Nat) / (1 : Nat)| ≤
      |(m.units : ℚ) - (m.units + k : Nat) / (1 : Nat)| :=
        abs_roundUnits_sub_le Nat.one_pos m.spaced
  push_cast at hnear
  rw [div_one, sub_add_cancel_left, abs_neg, Nat.abs_cast] at hnear
  have hle := (abs_le.mp hnear).2
  have hround : roundUnits (m.units + k) 1 ≤ m.units + 2 * k := by
    have : (roundUnits (m.units + k) 1 : ℚ) ≤ m.units + 2 * k := by linarith
    exact_mod_cast this
  have hroom := add_widestSpacing_le m
  omega

variable {x y : Binary64} {p k : ℤ}

/-- What is small beside the largest values does not make a sum overflow. Half a unit is that small,
so a range can always be widened. -/
theorem signed_add_of_small (hx : x.signed = some p) (hy : y.signed = some k)
    (hk : 2 * k.natAbs < widestSpacing) :
    (x + y).signed = some (nearestUnits (p + k) 1) := by
  refine signed_of_position? (position?_add hx hy) ?_
  obtain ⟨s, m, rfl, rfl⟩ := signed_eq_some hx
  have habs : (s.apply m.units + k).natAbs * 1 ≤ (m.units + k.natAbs) * 1 := by
    have := Int.natAbs_add_le (s.apply m.units) k
    rw [Sign.natAbs_apply] at this
    omega
  have hround := (roundUnits_mono Nat.one_pos Nat.one_pos habs).trans_lt (roundUnits_add_lt m hk)
  rw [natAbs_nearestUnits]
  omega

/-- Half a unit of one, counted in the smallest units. -/
def halfUnits : ℤ := 2 ^ 1073

theorem signed_half : (0.5 : Binary64).signed = some halfUnits := by
  decide +kernel

theorem halfUnits_pos : 0 < halfUnits := by
  decide +kernel

theorem halfUnits_small : 2 * halfUnits.natAbs < widestSpacing := by
  decide +kernel

theorem nearestUnits_halfUnits : nearestUnits halfUnits 1 = halfUnits :=
  nearestUnits_position (position?_of_signed signed_half)

theorem signed_add_half (hx : x.signed = some p) :
    (x + 0.5).signed = some (nearestUnits (p + halfUnits) 1) :=
  signed_add_of_small hx signed_half halfUnits_small

theorem signed_sub_half (hx : x.signed = some p) :
    (x - 0.5).signed = some (nearestUnits (p - halfUnits) 1) :=
  signed_add_of_small hx (signed_neg signed_half) (by rw [Int.natAbs_neg]; exact halfUnits_small)

end Binary64

/-! ## The extremes -/

section

variable {values : List Binary64}

open Binary64

/-- Of two values, the one that the fold keeps as the lower one. It may be either of two equal ones,
so nothing is said of which. -/
theorem exists_lower {a v : Binary64} (ha : a.isFinite = true) (hv : v.isFinite = true) :
    ∃ c, (if Quantity.below a v then a else v) = c ∧ (c = a ∨ c = v) ∧ c.isFinite = true ∧
      c.place ≤ a.place ∧ c.place ≤ v.place := by
  show ∃ c, (if a.lt v then a else v) = c ∧ _
  rw [lt_eq ha hv]
  by_cases hlt : a.place < v.place
  · exact ⟨a, by simp [hlt], Or.inl rfl, ha, le_rfl, hlt.le⟩
  · exact ⟨v, by simp [hlt], Or.inr rfl, hv, not_lt.mp hlt, le_rfl⟩

theorem exists_higher {b v : Binary64} (hb : b.isFinite = true) (hv : v.isFinite = true) :
    ∃ c, (if Quantity.below v b then b else v) = c ∧ (c = b ∨ c = v) ∧ c.isFinite = true ∧
      b.place ≤ c.place ∧ v.place ≤ c.place := by
  show ∃ c, (if v.lt b then b else v) = c ∧ _
  rw [lt_eq hv hb]
  by_cases hlt : v.place < b.place
  · exact ⟨b, by simp [hlt], Or.inl rfl, hb, le_rfl, hlt.le⟩
  · exact ⟨v, by simp [hlt], Or.inr rfl, hv, not_lt.mp hlt, le_rfl⟩

/-- The fold never leaves the values it has seen, and stays at their ends. The induction is on the
list, with any two values to start from. -/
theorem exists_foldl_extremes (hvalues : ∀ v ∈ values, v.isFinite = true) {a b : Binary64}
    (ha : a.isFinite = true) (hb : b.isFinite = true) :
    ∃ low high, values.foldl (fun (low, high) v =>
        (if Quantity.below low v then low else v, if Quantity.below v high then high else v))
          (a, b) =
          (low, high) ∧
      low ∈ a :: values ∧ high ∈ b :: values ∧
      (∀ v ∈ a :: values, low.place ≤ v.place) ∧ ∀ v ∈ b :: values, v.place ≤ high.place := by
  induction values generalizing a b with
  | nil => exact ⟨a, b, rfl, by simp, by simp, by simp, by simp⟩
  | cons v values ih =>
    have hv := hvalues v List.mem_cons_self
    obtain ⟨c, hc, hmem, hfinite, hlow, hlow'⟩ := exists_lower ha hv
    obtain ⟨d, hd, hmem', hfinite', hhigh, hhigh'⟩ := exists_higher hb hv
    obtain ⟨low, high, hfold, hin, hin', hleast, hgreatest⟩ :=
      ih (fun w hw => hvalues w (List.mem_cons_of_mem v hw)) hfinite hfinite'
    refine ⟨low, high, ?_, ?_, ?_, ?_, ?_⟩
    · rw [List.foldl_cons]
      dsimp only
      rw [hc, hd, hfold]
    · rcases List.mem_cons.mp hin with rfl | hin
      · rcases hmem with rfl | rfl <;> simp
      · exact List.mem_cons_of_mem a (List.mem_cons_of_mem v hin)
    · rcases List.mem_cons.mp hin' with rfl | hin'
      · rcases hmem' with rfl | rfl <;> simp
      · exact List.mem_cons_of_mem b (List.mem_cons_of_mem v hin')
    · intro w hw
      have hself := hleast c List.mem_cons_self
      rcases List.mem_cons.mp hw with rfl | hw
      · exact hself.trans hlow
      rcases List.mem_cons.mp hw with rfl | hw
      · exact hself.trans hlow'
      · exact hleast w (List.mem_cons_of_mem c hw)
    · intro w hw
      have hself := hgreatest d List.mem_cons_self
      rcases List.mem_cons.mp hw with rfl | hw
      · exact hhigh.trans hself
      rcases List.mem_cons.mp hw with rfl | hw
      · exact hhigh'.trans hself
      · exact hgreatest w (List.mem_cons_of_mem d hw)

/-- A least and a greatest value of a list. There may be several of each, like zeros of both signs;
their place is one. -/
structure Extremes (values : List Binary64) (low high : Binary64) : Prop where
  low_mem : low ∈ values
  high_mem : high ∈ values
  within : ∀ v ∈ values, low.place ≤ v.place ∧ v.place ≤ high.place

theorem exists_extremes (hvalues : ∀ v ∈ values, v.isFinite = true) (hne : values ≠ []) :
    ∃ low high, extremes? values = some (low, high) ∧ Extremes values low high := by
  obtain ⟨v, vs, rfl⟩ := List.exists_cons_of_ne_nil hne
  have hv := hvalues v List.mem_cons_self
  obtain ⟨low, high, hfold, hlow, hhigh, hleast, hgreatest⟩ :=
    exists_foldl_extremes (fun w hw => hvalues w (List.mem_cons_of_mem v hw)) hv hv
  exact ⟨low, high, congrArg some hfold, hlow, hhigh, fun w hw => ⟨hleast w hw, hgreatest w hw⟩⟩

/-- Two lists that do not reach beyond each other's extremes have these in the same places. So
neither order nor repetition of the values shows in them. -/
theorem Extremes.place_eq {values' : List Binary64} {low low' high high' : Binary64}
    (h : Extremes values low high) (h' : Extremes values' low' high')
    (hwithin : ∀ v ∈ values', low.place ≤ v.place ∧ v.place ≤ high.place)
    (hwithin' : ∀ v ∈ values, low'.place ≤ v.place ∧ v.place ≤ high'.place) :
    low.place = low'.place ∧ high.place = high'.place :=
  ⟨le_antisymm (hwithin low' h'.low_mem).1 (hwithin' low h.low_mem).1,
    le_antisymm (hwithin' high h.high_mem).2 (hwithin high' h'.high_mem).2⟩

/-! ## The range -/

/-- What the range of values can be: the one that is taken for no values, the extremes, or these
widened by a half. -/
theorem binningRange_cases (hvalues : ∀ v ∈ values, v.isFinite = true) :
    (values = [] ∧ binningRange values = (((0 : Nat) : Binary64), ((1 : Nat) : Binary64))) ∨
      ∃ low high, Extremes values low high ∧
        (low.place < high.place ∧ binningRange values = (low, high) ∨
          low.place = high.place ∧ binningRange values = (low - 0.5, high + 0.5)) := by
  by_cases hne : values = []
  · subst hne
    exact Or.inl ⟨rfl, rfl⟩
  · obtain ⟨low, high, hextremes, h⟩ := exists_extremes hvalues hne
    refine Or.inr ⟨low, high, h, ?_⟩
    have hbelow : Quantity.below low high = decide (low.place < high.place) :=
      lt_eq (hvalues low h.low_mem) (hvalues high h.high_mem)
    unfold binningRange
    rw [hextremes]
    dsimp only
    rw [hbelow]
    by_cases hlt : low.place < high.place
    · exact Or.inl ⟨hlt, by simp [hlt]⟩
    · have hle := (h.within low h.low_mem).2
      exact Or.inr ⟨by omega, by simp [hlt]⟩

/-- A range of finite numbers, not of two zeros, that values lie in. Finiteness is that of the ends;
the difference between them may overflow all the same. -/
structure Spans (range : Binary64 × Binary64) (values : List Binary64) : Prop where
  low_finite : range.1.isFinite = true
  high_finite : range.2.isFinite = true
  le : range.1.place ≤ range.2.place
  not_zeros : range.1.place ≠ 0 ∨ range.2.place ≠ 0
  within : ∀ v ∈ values, range.1.place ≤ v.place ∧ v.place ≤ range.2.place

theorem spans_binningRange (hvalues : ∀ v ∈ values, v.isFinite = true) :
    Spans (binningRange values) values := by
  rcases binningRange_cases hvalues with ⟨rfl, hrange⟩ |
    ⟨low, high, h, ⟨hlt, hrange⟩ | ⟨heq, hrange⟩⟩
  · rw [hrange]
    exact ⟨by decide +kernel, by decide +kernel, by decide +kernel, by decide +kernel, by simp⟩
  · rw [hrange]
    exact ⟨hvalues low h.low_mem, hvalues high h.high_mem, hlt.le, by dsimp only; omega, h.within⟩
  · have hlow := signed_sub_half (signed_place (hvalues low h.low_mem))
    have hhigh := signed_add_half (signed_place (hvalues high h.high_mem))
    have hself := nearestUnits_position (position?_place (hvalues low h.low_mem))
    rw [← heq] at hhigh
    have hpos := halfUnits_pos
    have hdown : nearestUnits (low.place - halfUnits) 1 ≤ low.place :=
      (nearestUnits_one_mono (by omega)).trans_eq hself
    have hup : low.place ≤ nearestUnits (low.place + halfUnits) 1 :=
      hself.symm.trans_le (nearestUnits_one_mono (by omega))
    rw [hrange]
    refine ⟨isFinite_iff.mpr ⟨_, hlow⟩, isFinite_iff.mpr ⟨_, hhigh⟩, ?_, ?_, fun v hv => ?_⟩
    all_goals
      dsimp only
      rw [place_eq (position?_of_signed hlow), place_eq (position?_of_signed hhigh)]
    · exact hdown.trans hup
    -- Half a unit away from zero on one side at least.
    · rcases le_or_gt low.place 0 with hle | hgt
      · have hneg := nearestUnits_one_mono (by omega : low.place - halfUnits ≤ -halfUnits)
        rw [nearestUnits_neg, nearestUnits_halfUnits] at hneg
        omega
      · have hge : halfUnits ≤ nearestUnits (low.place + halfUnits) 1 :=
          nearestUnits_halfUnits.symm.trans_le (nearestUnits_one_mono (by omega))
        omega
    · have hin := h.within v hv
      omega

/-! ## The width -/

/-- The width of the bins has no minus sign, and is NaN at worst. What depends on the order of bins
has only to rule out that. -/
theorem isPlus_width (bins : Nat) (hvalues : ∀ v ∈ values, v.isFinite = true) :
    (Binning.ofValues bins values).width.IsPlus := by
  have h := spans_binningRange hvalues
  have hdifference := isPlus_sub (signed_place h.high_finite) (signed_place h.low_finite) h.le
    h.not_zeros.symm
  exact hdifference.div (isPlus_natCast bins)

end
end Beamline
