import Beamline.Figure.Scatter
import Beamline.Proofs.Binary64.Overflow
import Beamline.Proofs.Histogram.Counting

/-!
# Axes — room around the values

An axis reaches from the least value to the greatest, and a little further at both ends. What is
added is never below zero and never NaN, though it may be lost in the sum, or so large that the sum
overflows. So each end stands at the extreme or beyond it, and everything that is drawn is between
them (`axisRange_encloses`).

Nothing of this asks for more of the values than where the extremes stand. Two lists of which each
brackets the other have their extremes in the same places, though not the same extremes: the sign of
a zero may differ. The room has not seen it, being a twentieth of a difference, or of a value that
is no zero (`axisRoom_congr`), and a sum with it stands in the same place for either zero.
-/

set_option autoImplicit false

namespace Beamline

open Binary64

/-! ## Room -/

/-- What is left at both ends of a range. -/
def axisRoom (low high : Binary64) : Binary64 :=
  if low.numEq high then
    if low.numEq 0.0 then 1.0 else 0.05 * low.abs
  else 0.05 * (high - low)

theorem axisRange_of_extremes {values : List Binary64} {low high : Binary64}
    (h : extremes? (finiteValues values) = some (low, high)) :
    axisRange values = ⟨low - axisRoom low high, high + axisRoom low high⟩ := by
  unfold axisRange
  rw [h]
  rfl

theorem axisRange_of_nil {values : List Binary64} (h : finiteValues values = []) :
    axisRange values = ⟨-1.0, 1.0⟩ := by
  unfold axisRange
  rw [h]
  rfl

/-- The value nearest to a twentieth, in units. -/
def twentieth : Nat := 0x1999999999999a * 2 ^ 1017

theorem signed_twentieth : (0.05 : Binary64).signed = some (twentieth : ℤ) := by
  decide +kernel

theorem twentieth_pos : 0 < twentieth := by
  decide +kernel

theorem signed_one : (1.0 : Binary64).signed = some (unitsPerOne : ℤ) := by
  decide +kernel

theorem position?_zero_literal : (0.0 : Binary64).position? = some 0 := by
  decide +kernel

section

variable {low high : Binary64} (hlow : low.isFinite = true) (hhigh : high.isFinite = true)

include hlow hhigh

/-- The room around a range is one, a twentieth of its only value, or a twentieth of its width. -/
theorem axisRoom_cases :
    (low.place = high.place ∧ low.place = 0 ∧ axisRoom low high = 1.0) ∨
      (low.place = high.place ∧ low.place ≠ 0 ∧ axisRoom low high = 0.05 * low.abs) ∨
      (low.place ≠ high.place ∧ axisRoom low high = 0.05 * (high - low)) := by
  have hequal := numEq_iff (position?_place hlow) (position?_place hhigh)
  have hzero := numEq_iff (position?_place hlow) position?_zero_literal
  unfold axisRoom
  by_cases hplace : low.place = high.place
  · rw [if_pos (hequal.mpr hplace)]
    by_cases hp : low.place = 0
    · exact Or.inl ⟨hplace, hp, if_pos (hzero.mpr hp)⟩
    · exact Or.inr (Or.inl ⟨hplace, hp, if_neg (mt hzero.mp hp)⟩)
  · exact Or.inr (Or.inr ⟨hplace, if_neg (mt hequal.mp hplace)⟩)

/-- Room is not NaN and not below zero. -/
theorem exists_position?_axisRoom (hle : low.place ≤ high.place) :
    ∃ r, (axisRoom low high).position? = some r ∧ 0 ≤ r := by
  have hpos : (0 : ℤ) < twentieth := by exact_mod_cast twentieth_pos
  rcases axisRoom_cases hlow hhigh with ⟨-, -, hroom⟩ | ⟨-, -, hroom⟩ | ⟨-, hroom⟩
  · rw [hroom]
    exact ⟨_, position?_of_signed signed_one, Int.natCast_nonneg _⟩
  · rw [hroom, Binary64.mul_comm]
    cases low with
    | nan => cases hlow
    | infinite s => cases hlow
    | finite s m =>
      exact exists_position?_mul signed_twentieth hpos rfl (Int.natCast_nonneg m.units)
  · rw [hroom, Binary64.mul_comm]
    exact exists_position?_mul signed_twentieth hpos
      (position?_sub (signed_place hhigh) (signed_place hlow)) (nearestUnits_nonneg (by omega) 1)

/-- The ends of an axis stand at the extremes, or further out. -/
theorem exists_ends (hle : low.place ≤ high.place) :
    ∃ a b, (low - axisRoom low high).position? = some a ∧
      (high + axisRoom low high).position? = some b ∧
      a ≤ low.place ∧ high.place ≤ b := by
  obtain ⟨r, hr, hnonneg⟩ := exists_position?_axisRoom hlow hhigh hle
  obtain ⟨a, ha, hbelow⟩ := exists_position?_sub hlow hr hnonneg
  obtain ⟨b, hb, habove, -⟩ := exists_position?_add hhigh hr
  exact ⟨a, b, ha, hb, hbelow, habove hnonneg⟩

end

/-! ## Everything drawn is between the ends -/

/-- An axis that finite values lie on: two numbers in order, with the values between them. -/
structure AxisRange.Encloses (range : AxisRange) (values : List Binary64) : Prop where
  start_number : range.start.isNaN = false
  stop_number : range.stop.isNaN = false
  ordered : range.start.le range.stop = true
  within : ∀ v ∈ values, v.isFinite = true → range.start.le v = true ∧ v.le range.stop = true

section

variable {values : List Binary64}

/-- There is nothing finite among the values, or they have extremes. -/
theorem extremes_cases (values : List Binary64) :
    finiteValues values = [] ∨
      ∃ low high, extremes? (finiteValues values) = some (low, high) ∧
        Extremes (finiteValues values) low high ∧ low.isFinite = true ∧ high.isFinite = true ∧
        low.place ≤ high.place := by
  have hfinite := isFinite_of_mem_finiteValues values
  by_cases hne : finiteValues values = []
  · exact Or.inl hne
  · obtain ⟨low, high, hsome, h⟩ := exists_extremes hfinite hne
    exact Or.inr ⟨low, high, hsome, h, hfinite low h.low_mem, hfinite high h.high_mem,
      (h.within low h.low_mem).2⟩

theorem axisRange_encloses (values : List Binary64) : (axisRange values).Encloses values := by
  rcases extremes_cases values with hnil | ⟨low, high, hsome, h, hlow, hhigh, hle⟩
  · rw [axisRange_of_nil hnil]
    refine ⟨by decide +kernel, by decide +kernel, by decide +kernel, fun v hv hfinite => ?_⟩
    have hmem := mem_finiteValues.mpr ⟨hv, hfinite⟩
    rw [hnil] at hmem
    cases hmem
  · rw [axisRange_of_extremes hsome]
    obtain ⟨a, b, ha, hb, hbelow, habove⟩ := exists_ends hlow hhigh hle
    refine ⟨isNaN_eq_false_iff.mpr ⟨a, ha⟩, isNaN_eq_false_iff.mpr ⟨b, hb⟩,
      (le_iff ha hb).mpr (by omega),
      fun v hv hfinite => ?_⟩
    have hin := h.within v (mem_finiteValues.mpr ⟨hv, hfinite⟩)
    have hv' := position?_place hfinite
    exact ⟨(le_iff ha hv').mpr (by omega), (le_iff hv' hb).mpr (by omega)⟩

end

/-- **Everything that is drawn lies inside its axes.** Take any series. The ends of both axes around
them are numbers, in order, and each point of each series is between them, whatever the room at the
ends has been rounded to. -/
theorem Scatter.points_inside (series : List Scatter) :
    let x := horizontalAxis series
    let y := verticalAxis series
    x.start.isNaN = false ∧ x.stop.isNaN = false ∧ x.start.le x.stop = true ∧
      y.start.isNaN = false ∧ y.stop.isNaN = false ∧ y.start.le y.stop = true ∧
      ∀ s ∈ series, ∀ point ∈ s.points,
        x.start.le point.1 = true ∧ point.1.le x.stop = true ∧
          y.start.le point.2 = true ∧ point.2.le y.stop = true := by
  have hx := axisRange_encloses (series.flatMap fun s => s.points.map Prod.fst)
  have hy := axisRange_encloses (series.flatMap fun s => s.points.map Prod.snd)
  refine ⟨hx.start_number, hx.stop_number, hx.ordered, hy.start_number, hy.stop_number,
    hy.ordered, ?_⟩
  intro s hs point hpoint
  have hfinite : point.1.isFinite = true ∧ point.2.isFinite = true := by
    simpa using (List.mem_filter.mp hpoint).2
  have hmem : ∀ coordinate : Binary64 × Binary64 → Binary64,
      coordinate point ∈ series.flatMap fun s => s.points.map coordinate := fun coordinate =>
    List.mem_flatMap.mpr ⟨s, hs, List.mem_map_of_mem hpoint⟩
  obtain ⟨hleft, hright⟩ := hx.within _ (hmem Prod.fst) hfinite.1
  obtain ⟨hbottom, htop⟩ := hy.within _ (hmem Prod.snd) hfinite.2
  exact ⟨hleft, hright, hbottom, htop⟩

/-- An axis so wide that its ends have overflowed, under points that differ by the least and the
most there is. -/
theorem Scatter.points_inside_overflown :
    let s : Scatter := ⟨none, .pureBlue, [round .plus (2 ^ 2097) 1, round .minus (2 ^ 2097) 1, nan],
      [round .plus 1 1, zero .minus, 1.0]⟩
    let point : Binary64 × Binary64 := (round .plus (2 ^ 2097) 1, round .plus 1 1)
    (horizontalAxis [s]).stop = infinite .plus ∧ point ∈ s.points ∧
      point.1.le (horizontalAxis [s]).stop = true ∧ point.2.le (verticalAxis [s]).stop = true := by
  intro s point
  have hpoint : point ∈ s.points := by decide +kernel
  obtain ⟨-, -, -, -, -, -, hinside⟩ := points_inside [s]
  obtain ⟨-, hright, -, htop⟩ := hinside s List.mem_cons_self point hpoint
  exact ⟨by decide +kernel, hpoint, hright, htop⟩

/-! ## Only the extremes matter -/

/-- Two axes with their ends in the same places. -/
def AxisRange.SameEnds (range range' : AxisRange) : Prop :=
  range.start.numEq range'.start = true ∧ range.stop.numEq range'.stop = true

section

variable {values values' : List Binary64}

/-- Every finite value of the second list lies between finite values of the first. -/
def Brackets (values values' : List Binary64) : Prop :=
  ∀ v ∈ values', v.isFinite = true →
    ∃ low ∈ values, ∃ high ∈ values, low.isFinite = true ∧ high.isFinite = true ∧
      low.le v = true ∧ v.le high = true

theorem brackets_of_subset (h : values' ⊆ values) : Brackets values values' := by
  intro v hv hfinite
  have hself : v.le v = true :=
    (le_iff (position?_place hfinite) (position?_place hfinite)).mpr le_rfl
  exact ⟨v, h hv, v, h hv, hfinite, hfinite, hself, hself⟩

theorem brackets_of_numEq (h : ∀ v ∈ values', v.isFinite = true → ∃ w ∈ values, w.numEq v = true) :
    Brackets values values' := by
  intro v hv hfinite
  obtain ⟨w, hw, heq⟩ := h v hv hfinite
  have hposition := position?_of_numEq heq (position?_place hfinite)
  have hw' := isFinite_iff.mpr ⟨_, signed_of_position? hposition (natAbs_place_lt hfinite)⟩
  exact ⟨w, hw, w, hw, hw', hw', (le_iff hposition (position?_place hfinite)).mpr le_rfl,
    (le_iff (position?_place hfinite) hposition).mpr le_rfl⟩

theorem Brackets.within (hbrackets : Brackets values values') {low high : Binary64}
    (h : Extremes (finiteValues values) low high) :
    ∀ v ∈ finiteValues values', low.place ≤ v.place ∧ v.place ≤ high.place := by
  intro v hv
  obtain ⟨hmem, hfinite⟩ := mem_finiteValues.mp hv
  obtain ⟨a, ha, b, hb, hafinite, hbfinite, hav, hvb⟩ := hbrackets v hmem hfinite
  have hleast := (h.within a (mem_finiteValues.mpr ⟨ha, hafinite⟩)).1
  have hgreatest := (h.within b (mem_finiteValues.mpr ⟨hb, hbfinite⟩)).2
  have hleft := (le_iff (position?_place hafinite) (position?_place hfinite)).mp hav
  have hright := (le_iff (position?_place hfinite) (position?_place hbfinite)).mp hvb
  omega

theorem Brackets.eq_nil (hbrackets : Brackets values values') (hnil : finiteValues values = []) :
    finiteValues values' = [] := by
  refine List.eq_nil_iff_forall_not_mem.mpr fun v hv => ?_
  obtain ⟨hmem, hfinite⟩ := mem_finiteValues.mp hv
  obtain ⟨low, hlow, -, -, hlow', -⟩ := hbrackets v hmem hfinite
  have hin := mem_finiteValues.mpr ⟨hlow, hlow'⟩
  rw [hnil] at hin
  cases hin

/-- Room is the same for extremes in the same places. -/
theorem axisRoom_congr {low low' high high' : Binary64} (hlow : low.isFinite = true)
    (hlow' : low'.isFinite = true) (hhigh : high.isFinite = true) (hhigh' : high'.isFinite = true)
    (hleast : low.place = low'.place) (hgreatest : high.place = high'.place) :
    axisRoom low high = axisRoom low' high' := by
  rcases axisRoom_cases hlow hhigh with ⟨hequal, hzero, hroom⟩ | ⟨hequal, hne, hroom⟩ | ⟨hne, hroom⟩
  all_goals
    rcases axisRoom_cases hlow' hhigh' with ⟨hequal', hzero', hroom'⟩ | ⟨hequal', hne', hroom'⟩ |
      ⟨hne', hroom'⟩
  all_goals try omega
  · rw [hroom, hroom']
  · obtain rfl := eq_of_position? (position?_place hlow) (hleast ▸ position?_place hlow') hne
    rw [hroom, hroom']
  · rw [hroom, hroom', sub_of_ne (signed_place hhigh) (signed_place hlow) (Ne.symm hne),
      sub_of_ne (signed_place hhigh') (signed_place hlow') (Ne.symm hne'), hleast, hgreatest]

theorem sameEnds (h : Brackets values values') (h' : Brackets values' values) :
    (axisRange values).SameEnds (axisRange values') := by
  rcases extremes_cases values with hnil | ⟨low, high, hsome, hext, hlow, hhigh, hle⟩
  · rw [axisRange_of_nil hnil, axisRange_of_nil (h.eq_nil hnil)]
    exact ⟨by decide +kernel, by decide +kernel⟩
  rcases extremes_cases values' with hnil' | ⟨low', high', hsome', hext', hlow', hhigh', -⟩
  · have hmem := hext.low_mem
    rw [h'.eq_nil hnil'] at hmem
    cases hmem
  obtain ⟨hleast, hgreatest⟩ := hext.place_eq hext' (h.within hext) (h'.within hext')
  have hroom := axisRoom_congr hlow hlow' hhigh hhigh' hleast hgreatest
  obtain ⟨a, b, ha, hb, -, -⟩ := exists_ends hlow hhigh hle
  have hstart := position?_add_congr (position?_place hlow) (hleast ▸ position?_place hlow')
    (-axisRoom low high)
  have hstop := position?_add_congr (position?_place hhigh) (hgreatest ▸ position?_place hhigh')
    (axisRoom low high)
  rw [axisRange_of_extremes hsome, axisRange_of_extremes hsome', ← hroom]
  exact ⟨(numEq_iff ha (hstart.symm.trans ha)).mpr rfl,
    (numEq_iff hb (hstop.symm.trans hb)).mpr rfl⟩

end

/-- **An axis depends on the set of finite values alone.** If each finite value of two lists is
numerically equal to one of the other list, their axes end in the same places; and they do so too if
what is added to a list, at any place in it, is not finite or lies between two finite values that it
has. -/
theorem axisRange_of_set :
    (∀ values values' : List Binary64,
      (∀ v ∈ values, v.isFinite = true → ∃ w ∈ values', w.numEq v = true) →
      (∀ w ∈ values', w.isFinite = true → ∃ v ∈ values, v.numEq w = true) →
      (axisRange values).SameEnds (axisRange values')) ∧
    ∀ values more values' : List Binary64, Brackets values more → values'.Perm (values ++ more) →
      (axisRange values).SameEnds (axisRange values') := by
  constructor
  · intro values values' h h'
    exact sameEnds (brackets_of_numEq h') (brackets_of_numEq h)
  · intro values more values' h hperm
    refine sameEnds (fun v hv hfinite => ?_)
      (brackets_of_subset fun v hv => hperm.mem_iff.mpr (List.mem_append_left more hv))
    rcases List.mem_append.mp (hperm.mem_iff.mp hv) with hin | hmore
    · exact brackets_of_subset (List.Subset.refl values) v hin hfinite
    · exact h v hmore hfinite

/-- Lists with one of the zeros each, in two orders, and with a value between theirs. -/
theorem axisRange_of_set_zeros :
    (axisRange [zero .plus, 2.0, nan]).SameEnds
        (axisRange [2.0, infinite .minus, zero .minus, 2.0]) ∧
      (axisRange [zero .plus, 2.0, nan]).SameEnds
        (axisRange [1.0, zero .plus, 2.0, nan, infinite .plus]) :=
  ⟨axisRange_of_set.1 [zero .plus, 2.0, nan] [2.0, infinite .minus, zero .minus, 2.0]
    (by decide +kernel)
      (by decide +kernel),
    axisRange_of_set.2 [zero .plus, 2.0, nan] [1.0, infinite .plus]
      [1.0, zero .plus, 2.0, nan, infinite .plus]
      (by unfold Brackets; decide +kernel) (by decide +kernel)⟩

end Beamline
