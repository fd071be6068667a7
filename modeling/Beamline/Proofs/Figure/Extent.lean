import Beamline.Proofs.Binary64.Error
import Beamline.Proofs.Figure.Axis

/-!
# Extent — when the ends of an axis lie apart

Where there are two values, the ends of their axis are at least as far apart as these. Where there
is only one, it depends on the room around it being seen in a sum. Mostly it is: a twentieth of a
value is more than the distance to the next one (`spacing_le_room`). But next to zero the distance
between values does not shrink with them, and a twentieth of fewer than ten of the smallest units is
rounded to nothing (`room_eq_zero`). An axis around such a value alone has no extent
(`axisRange_apart_iff`).
-/

set_option autoImplicit false

namespace Beamline

open Binary64

/-! ## Room in units -/

/-- A twentieth of some units, as it is rounded. It is what the program adds around a single value,
and the question is whether any of it is left. -/
def roomUnits (n : Nat) : Nat := roundUnits (twentieth * n) unitsPerOne

/-- A twentieth of fewer than ten units is less than half a unit, and nothing is left of it. -/
theorem room_eq_zero {n : Nat} (h : n < 10) : roomUnits n = 0 := by
  have hnine : roundUnits (twentieth * 9) unitsPerOne = 0 := by decide +kernel
  have hle : twentieth * n * unitsPerOne ≤ twentieth * 9 * unitsPerOne :=
    Nat.mul_le_mul_right _ (Nat.mul_le_mul_left _ (by omega))
  have hmono := roundUnits_mono unitsPerOne_pos unitsPerOne_pos hle
  rw [hnine] at hmono
  exact Nat.le_zero.mp hmono

/-- From ten units on a twentieth is seen in a sum. Where values are one unit apart it is a whole
unit, as rounding is monotone; beyond, the distance between values is a smaller share of them than a
twentieth. -/
theorem spacing_le_room {n : Nat} (h : 10 ≤ n) : spacing n ≤ roomUnits n := by
  by_cases hsmall : n < 2 ^ 53
  · have hten : roundUnits (twentieth * 10) unitsPerOne = 1 := by decide +kernel
    have hle : twentieth * 10 * unitsPerOne ≤ twentieth * n * unitsPerOne :=
      Nat.mul_le_mul_right _ (Nat.mul_le_mul_left _ h)
    have hmono := roundUnits_mono unitsPerOne_pos unitsPerOne_pos hle
    rw [hten] at hmono
    rw [spacing_eq_one hsmall]
    exact hmono
  · have hbits : unitsPerOne ≤ twentieth * 2 ^ 52 := by decide +kernel
    have hspacing : spacing n * 2 ^ 52 ≤ n :=
      spacing_mul_le ((Nat.pow_le_pow_right Nat.two_pos (by decide)).trans (not_lt.mp hsmall))
    refine le_roundUnits unitsPerOne_pos (spacing_dvd_two_pow _) ?_
    calc
      spacing n * unitsPerOne ≤ spacing n * (twentieth * 2 ^ 52) := Nat.mul_le_mul_left _ hbits
      _ = twentieth * (spacing n * 2 ^ 52) := Nat.mul_left_comm _ _ _
      _ ≤ twentieth * n := Nat.mul_le_mul_left _ hspacing

theorem roomUnits_le (m : Magnitude) : roomUnits m.units ≤ m.units := by
  have hsmall : twentieth ≤ unitsPerOne := by decide +kernel
  refine roundUnits_le unitsPerOne_pos m.spaced ?_
  rw [Nat.mul_comm m.units]
  exact Nat.mul_le_mul_right _ hsmall

/-- One spacing is seen in a sum. -/
theorem lt_nearestUnits_add (m : Magnitude) {r : Nat} (h : spacing m.units ≤ r) :
    (m.units : ℤ) < nearestUnits (m.units + r) 1 := by
  have hpos := spacing_pos m.units
  have hbounded := m.bounded
  have hnext : m.units + spacing m.units ≤ roundUnits (m.units + r) 1 :=
    le_roundUnits Nat.one_pos (spacing_dvd_add_spacing m.spaced) (by omega)
  rw [← Nat.cast_add, nearestUnits_of_nonneg]
  exact_mod_cast lt_min (by omega) hbounded

section

variable {x : Binary64}

/-- The ends of an axis around a single value: the value in units, less and more a twentieth of it
in units, each rounded once more. -/
theorem ends_of_constant (hx : x.isFinite = true) (hne : x.place ≠ 0) :
    (x - 0.05 * x.abs).position? = some (nearestUnits (x.place - roomUnits x.place.natAbs) 1) ∧
      (x + 0.05 * x.abs).position? =
        some (nearestUnits (x.place + roomUnits x.place.natAbs) 1) := by
  obtain ⟨s, m, rfl, hm⟩ := signed_eq_some (signed_place hx)
  have habs : (finite s m).place.natAbs = m.units := by rw [hm, Sign.natAbs_apply]
  have hle := roomUnits_le m
  have hposition : (0.05 * (finite s m).abs).position? = some (roomUnits m.units : ℤ) := by
    rw [position?_mul (y := (finite s m).abs) signed_twentieth rfl, Sign.plus_apply, ← Nat.cast_mul,
      nearestUnits_of_nonneg]
    exact congrArg some (congrArg Nat.cast (min_eq_left (hle.trans m.bounded.le)))
  have hsigned := signed_of_position? hposition (by
    rw [Int.natAbs_natCast]
    exact hle.trans_lt m.bounded)
  rw [habs]
  exact ⟨position?_sub (signed_place hx) hsigned, position?_add (signed_place hx) hsigned⟩

/-- They lie apart if the value is large enough, and only then. One of the two ends may fall back
onto the value by rounding; it is enough that the other does not. -/
theorem ends_of_constant_apart_iff (hx : x.isFinite = true) (hne : x.place ≠ 0) :
    (x - 0.05 * x.abs).lt (x + 0.05 * x.abs) = true ↔ 10 ≤ x.place.natAbs := by
  obtain ⟨hstart, hstop⟩ := ends_of_constant hx hne
  rw [lt_iff hstart hstop]
  have hself := nearestUnits_position (position?_place hx)
  constructor
  · intro hlt
    by_contra hsmall
    rw [room_eq_zero (by omega)] at hlt
    simp at hlt
  · intro hlarge
    have hroom := spacing_le_room hlarge
    obtain ⟨s, m, rfl, hm⟩ := signed_eq_some (signed_place hx)
    have habs : (finite s m).place.natAbs = m.units := by rw [hm, Sign.natAbs_apply]
    rw [habs] at hroom ⊢
    have hfar := lt_nearestUnits_add m hroom
    -- The end that is further from zero is the one that has moved.
    cases s with
    | plus =>
      have hplace : (finite .plus m).place = m.units := rfl
      rw [hplace] at hself ⊢
      have hstart' := nearestUnits_one_mono (by omega : (m.units : ℤ) - roomUnits m.units ≤ m.units)
      omega
    | minus =>
      have hplace : (finite .minus m).place = -(m.units : ℤ) := rfl
      rw [hplace] at hself ⊢
      have hstop' :=
        nearestUnits_one_mono (by omega : -(m.units : ℤ) ≤ -m.units + roomUnits m.units)
      rw [← neg_add', nearestUnits_neg]
      omega

end

/-- The least magnitude that a twentieth is not lost of. -/
def leastRoomy : Binary64 := round .plus 10 1

theorem signed_leastRoomy : leastRoomy.signed = some 10 := by
  decide +kernel

/-- All finite values are one number, which is not zero but next to it. -/
def Cramped (values : List Binary64) : Prop :=
  ∃ v ∈ values, v.isFinite = true ∧ (zero .plus).lt v.abs = true ∧ v.abs.lt leastRoomy = true ∧
    ∀ w ∈ values, w.isFinite = true → w.numEq v = true

theorem Binary64.signed_abs {v : Binary64} (hv : v.isFinite = true) :
    v.abs.signed = some (v.place.natAbs : ℤ) := by
  obtain ⟨s, m, rfl, hm⟩ := signed_eq_some (signed_place hv)
  rw [hm, Sign.natAbs_apply]
  rfl

/-- All finite values are one number if the extremes are, so a list is cramped or not by its
extremes alone. -/
theorem cramped_iff {values : List Binary64} {low high : Binary64}
    (h : Extremes (finiteValues values) low high) (hlow : low.isFinite = true) :
    Cramped values ↔ low.place = high.place ∧ low.place ≠ 0 ∧ low.place.natAbs < 10 := by
  have hzero : (zero .plus).position? = some 0 := rfl
  have hten := position?_of_signed signed_leastRoomy
  constructor
  · rintro ⟨v, -, hv, hpos, hlt, hall⟩
    have hsame : ∀ w ∈ finiteValues values, w.place = v.place := by
      intro w hw
      obtain ⟨hmem, hfinite⟩ := mem_finiteValues.mp hw
      exact (numEq_iff (position?_place hfinite) (position?_place hv)).mp (hall w hmem hfinite)
    have habs := position?_of_signed (signed_abs hv)
    rw [lt_iff hzero habs] at hpos
    rw [lt_iff habs hten] at hlt
    rw [hsame low h.low_mem, hsame high h.high_mem]
    omega
  · rintro ⟨hequal, hne, hsmall⟩
    obtain ⟨hmem, -⟩ := mem_finiteValues.mp h.low_mem
    have habs := position?_of_signed (signed_abs hlow)
    refine ⟨low, hmem, hlow, (lt_iff hzero habs).mpr (by omega),
      (lt_iff habs hten).mpr (by omega), ?_⟩
    intro w hw hfinite
    have hin := h.within w (mem_finiteValues.mpr ⟨hw, hfinite⟩)
    exact (numEq_iff (position?_place hfinite) (position?_place hlow)).mpr (by omega)

/-- **When an axis has an extent.** For any values the ends lie apart, except around a single value
of fewer than ten of the smallest units. -/
theorem axisRange_apart_iff (values : List Binary64) :
    (axisRange values).start.lt (axisRange values).stop = true ↔ ¬ Cramped values := by
  rcases extremes_cases values with hnil | ⟨low, high, hsome, h, hlow, hhigh, hle⟩
  · rw [axisRange_of_nil hnil]
    refine iff_of_true (by decide +kernel) ?_
    rintro ⟨v, hv, hfinite, -⟩
    have hmem := mem_finiteValues.mpr ⟨hv, hfinite⟩
    rw [hnil] at hmem
    cases hmem
  · rw [axisRange_of_extremes hsome, cramped_iff h hlow]
    dsimp only
    rcases axisRoom_cases hlow hhigh with ⟨hequal, hzero, hroom⟩ | ⟨hequal, hne, hroom⟩ | ⟨hne, -⟩
    · have hstart := position?_sub (signed_place hlow) signed_one
      have hstop := position?_add (signed_place hhigh) signed_one
      have hone := nearestUnits_position (position?_of_signed signed_one)
      have hpos := unitsPerOne_pos
      rw [← hequal, hzero, zero_add, hone] at hstop
      rw [hzero, zero_sub, nearestUnits_neg, hone] at hstart
      rw [hroom, lt_iff hstart hstop]
      exact iff_of_true (by omega) (by omega)
    -- The lower value and the higher one are the same.
    · obtain rfl := eq_of_position? (position?_place hlow) (hequal ▸ position?_place hhigh) hne
      rw [hroom, ends_of_constant_apart_iff hlow hne]
      omega
    · obtain ⟨a, b, ha, hb, hbelow, habove⟩ := exists_ends hlow hhigh hle
      rw [lt_iff ha hb]
      exact iff_of_true (by omega) (by omega)

/-- The smallest value of all, and the largest that is too small. -/
theorem axisRange_not_apart :
    (axisRange [round .plus 1 1]).start.lt (axisRange [round .plus 1 1]).stop = false ∧
      (axisRange [round .minus 9 1, nan]).start.lt (axisRange [round .minus 9 1, nan]).stop =
        false := by
  decide +kernel

end Beamline
