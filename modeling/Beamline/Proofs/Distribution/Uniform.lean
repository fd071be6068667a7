import Beamline.Beam.Distribution
import Beamline.Proofs.Distribution.Mean

/-!
# Uniform beams — deviations from a common value

Particles of one momentum do not deviate from their mean, if the mean is that momentum. What the
columns show is all or nothing. A difference of two values is zero only if they are equal, and
neither units nor percentages make it vanish (`fracMomentumDevPct_eq_zero_iff`): the mean is of the
same sign, and two different values are never closer together than a small part of either. So the
deviations of a uniform beam are zero exactly when its mean is the common value, and that is a
question of sums.
-/

set_option autoImplicit false

namespace Beamline

open Binary64

/-! ## Differences that vanish -/

/-- Different magnitudes are not closer together than a small part of the larger one: the next
magnitude is a spacing away, and none is as many as `2 ^ 53` spacings. -/
theorem le_mul_sub_of_spaced {m n : Nat} (hm : spacing m ∣ m) (hn : spacing n ∣ n) (h : m < n) :
    n ≤ 2 ^ 54 * (n - m) := by
  have hnext := add_spacing_le hm hn h
  have hbits := (Nat.div_lt_iff_lt_mul (spacing_pos m)).mp (div_spacing_lt m)
  omega

namespace Binary64

variable {x y z : Binary64} {q r : ℤ}

/-- The same with signs. Values on different sides of zero are further apart than either is
large. -/
theorem natAbs_place_le_mul_sub (hx : x.isFinite = true) (hy : y.isFinite = true)
    (hne : x.place ≠ y.place) :
    y.place.natAbs ≤ 2 ^ 54 * (x.place - y.place).natAbs := by
  obtain ⟨s, m, -, hm⟩ := signed_eq_some (signed_place hx)
  obtain ⟨t, n, -, hn⟩ := signed_eq_some (signed_place hy)
  have hleft : x.place.natAbs = m.units := by rw [hm, Sign.natAbs_apply]
  have hright : y.place.natAbs = n.units := by rw [hn, Sign.natAbs_apply]
  rcases lt_trichotomy m.units n.units with hlt | heq | hgt
  · have hapart := le_mul_sub_of_spaced m.spaced n.spaced hlt
    omega
  -- The same magnitude, so on the other side of zero.
  · omega
  · have hapart := le_mul_sub_of_spaced n.spaced m.spaced hgt
    omega

/-- A whole number of units that is rounded to a finite value is not much larger than it. -/
theorem natAbs_le_two_mul_place (hz : z.position? = some (nearestUnits r 1))
    (hfinite : z.isFinite = true) :
    r.natAbs ≤ 2 * z.place.natAbs := by
  have herror := abs_nearestUnits_sub_le (natAbs_nearestUnits_lt hz hfinite)
  rw [← place_eq hz] at herror
  have htriangle := abs_sub_abs_le_abs_sub (r : ℚ) z.place
  rw [abs_sub_comm] at htriangle
  have hsmall : |(r : ℚ)| * roundoff ≤ |(r : ℚ)| * (1 / 2) :=
    mul_le_mul_of_nonneg_left (by unfold roundoff; norm_num) (abs_nonneg _)
  have hcast : |(r : ℚ)| ≤ 2 * |(z.place : ℚ)| := by linarith
  rw [← Int.cast_abs, ← Int.cast_abs, ← Nat.cast_natAbs, ← Nat.cast_natAbs] at hcast
  exact_mod_cast hcast

/-- A difference is zero only between equal values. Values next to each other are a whole number of
units apart, so their difference is never rounded to zero. -/
theorem sub_eq_zero_iff (hx : x.isFinite = true) (y : Binary64) :
    (x - y).position? = some 0 ↔ y.numEq x = true := by
  have hbound := natAbs_place_lt hx
  have hplace := position?_place hx
  cases y with
  | nan =>
    have hdifference : x - nan = nan := by cases x <;> rfl
    rw [hdifference]
    exact iff_of_false (Option.some_ne_none 0).symm Bool.false_ne_true
  | infinite t =>
    obtain ⟨s, m, rfl, -⟩ := signed_eq_some (signed_place hx)
    have hpos := overflowUnits_pos
    have hposition : (finite s m - infinite t).position? = some (t.flip.apply overflowUnits) := rfl
    rw [numEq_iff rfl hplace, hposition, Option.some_inj]
    cases t <;> simp only [Sign.flip, Sign.apply] <;> omega
  | finite t n =>
    rw [position?_sub (signed_place hx) rfl, numEq_iff rfl hplace, Option.some_inj,
      nearestUnits_eq_zero_iff]
    omega

theorem position?_neg_eq_zero_iff : (-x).position? = some 0 ↔ x.position? = some 0 := by
  constructor
  · intro h
    have hneg := position?_neg h
    cases x with
    | nan => cases h
    | infinite s => cases s <;> exact hneg
    | finite s m => cases s <;> exact hneg
  · exact position?_neg

theorem div_nan (x : Binary64) : x / nan = nan := by
  cases x <;> rfl

/-- A zero stays one in a quotient, unless it is divided by zero. -/
protected theorem zero_div (hx : x.position? = some 0) (hy : y.signed = some q) (hq : q ≠ 0) :
    (x / y).position? = some 0 := by
  obtain ⟨s, rfl⟩ := exists_zero hx
  obtain ⟨t, n, rfl, rfl⟩ := signed_eq_some hy
  have hn : n.units ≠ 0 := by
    rintro h
    rw [h] at hq
    cases t <;> exact hq rfl
  have hzero : (s.times t).apply (Magnitude.zero.units * unitsPerOne) = 0 := by
    rw [show Magnitude.zero.units = 0 from rfl, Nat.zero_mul]
    cases s.times t <;> rfl
  rw [zero, div_finite s _ t hn, position?_round, hzero, nearestUnits_zero]

/-- A quotient that is not next to zero is not rounded to zero. -/
protected theorem div_ne_zero (hy : y.isFinite = true)
    (hle : x.isFinite = true → y.place.natAbs ≤ x.place.natAbs * unitsPerOne) :
    (x / y).position? ≠ some 0 := by
  obtain ⟨t, n, rfl, hn⟩ := signed_eq_some (signed_place hy)
  cases x with
  | nan => exact (Option.some_ne_none 0).symm
  | infinite s => exact position?_infinite_ne_zero (s.times t)
  | finite s m =>
    have hle := hle rfl
    rw [hn, place_eq (x := finite s m) rfl, Sign.natAbs_apply, Sign.natAbs_apply] at hle
    by_cases hzero : n.units = 0
    · have hdiv : finite s m / finite t n = if m.units = 0 then nan else infinite (s.times t) :=
        if_pos hzero
      rw [hdiv]
      split
      · exact (Option.some_ne_none 0).symm
      · exact position?_infinite_ne_zero (s.times t)
    · have hround : 1 ≤ roundUnits (m.units * unitsPerOne) n.units :=
        le_roundUnits (Nat.pos_of_ne_zero hzero) (spacing_dvd_two_pow 0) (by rwa [Nat.one_mul])
      rw [div_finite s m t hzero, position?_round, nearestUnits_apply]
      intro h
      have habs := congrArg Int.natAbs (Option.some.inj h)
      rw [Sign.natAbs_apply] at habs
      have hpos := overflowUnits_pos
      omega

end Binary64

/-! ## The columns -/

section

variable {x : Binary64} (hx : x.isFinite = true) (mean : Binary64)

include hx

/-- A factor that is a count above one does not make a difference vanish, nor does it turn one into
a value that is not zero. -/
theorem centeredTimeFs_eq_zero_iff :
    (centeredTimeFs mean x).numEq (zero .plus) = true ↔ mean.numEq x = true := by
  have hunit : (femtosecondsPerSecond : Binary64) = ((10 ^ 15 : Nat) : Binary64) := by
    decide +kernel
  unfold centeredTimeFs
  rw [numEq_zero_iff, hunit]
  exact (position?_mul_natCast_eq_zero_iff (by decide) (by decide)).trans (sub_eq_zero_iff hx mean)

theorem longitudinalOffsetUm_eq_zero_iff :
    (longitudinalOffsetUm mean x).numEq (zero .plus) = true ↔ mean.numEq x = true := by
  have hspeed : (speedOfLight : Binary64) = ((3 * 10 ^ 8 : Nat) : Binary64) := by decide +kernel
  have hunit : (micrometresPerMetre : Binary64) = ((10 ^ 6 : Nat) : Binary64) := by decide +kernel
  unfold longitudinalOffsetUm
  rw [numEq_zero_iff, hspeed, hunit]
  refine (position?_mul_natCast_eq_zero_iff (by decide) (by decide)).trans ?_
  refine (position?_mul_natCast_eq_zero_iff (by decide) (by decide)).trans ?_
  exact position?_neg_eq_zero_iff.trans (sub_eq_zero_iff hx mean)

/-- A hundred times the difference from the mean, rounded twice, is still no smaller part of the
mean than a unit is of one. Each rounding loses less than half. -/
theorem natAbs_place_le_hundredfold {y : Binary64} (hy : y.isFinite = true)
    (hne : x.place ≠ y.place) (hfinite : ((x - y) * ((100 : Nat) : Binary64)).isFinite = true) :
    y.place.natAbs ≤ ((x - y) * ((100 : Nat) : Binary64)).place.natAbs * unitsPerOne := by
  have hdifference := isFinite_of_mul_left hfinite
  have hapart := natAbs_place_le_mul_sub hx hy hne
  have hsub :=
    natAbs_le_two_mul_place (position?_sub (signed_place hx) (signed_place hy)) hdifference
  have hmul := natAbs_le_two_mul_place (position?_mul_natCast hdifference (by decide)) hfinite
  have hunit : 2 ^ 56 ≤ unitsPerOne := Nat.pow_le_pow_right Nat.two_pos (by decide)
  rw [Int.natAbs_mul, Int.natAbs_natCast] at hmul
  calc
    y.place.natAbs ≤ 2 ^ 54 * (x.place - y.place).natAbs := hapart
    _ ≤ ((x - y) * ((100 : Nat) : Binary64)).place.natAbs * 2 ^ 56 := by omega
    _ ≤ ((x - y) * ((100 : Nat) : Binary64)).place.natAbs * unitsPerOne :=
      Nat.mul_le_mul_left _ hunit

/-- A percentage is of the mean, and a difference from the mean is never so small a part of it that
the quotient vanishes. -/
theorem percentage_ne_zero (hne : mean.numEq x ≠ true) :
    ((x - mean) * ((100 : Nat) : Binary64) / mean).position? ≠ some 0 := by
  cases mean with
  | nan =>
    rw [div_nan]
    exact (Option.some_ne_none 0).symm
  | infinite t =>
    obtain ⟨s, m, rfl, -⟩ := signed_eq_some (signed_place hx)
    obtain ⟨u, hu, -⟩ :=
      infinite_mul t.flip (signed_natCast (n := 100) (by decide)) (by decide +kernel)
    have hproduct : (finite s m - infinite t) * ((100 : Nat) : Binary64) = infinite u := hu
    rw [hproduct]
    exact (Option.some_ne_none 0).symm
  | finite t n =>
    have hplaces : x.place ≠ (finite t n).place := fun heq =>
      hne ((numEq_iff (position?_place rfl) (position?_place hx)).mpr heq.symm)
    exact Binary64.div_ne_zero rfl (natAbs_place_le_hundredfold hx rfl hplaces)

theorem fracMomentumDevPct_eq_zero_iff (hne : x.place ≠ 0) :
    (fracMomentumDevPct mean x).numEq (zero .plus) = true ↔ mean.numEq x = true := by
  have hhundred : (1e2 : Binary64) = ((100 : Nat) : Binary64) := by decide +kernel
  have hform : fracMomentumDevPct mean x = (x - mean) * ((100 : Nat) : Binary64) / mean := by
    rw [Binary64.mul_comm]
    exact congrArg (fun c => c * (x - mean) / mean) hhundred
  rw [numEq_zero_iff, hform]
  constructor
  · exact not_imp_not.mp (percentage_ne_zero hx mean)
  · intro h
    have hmean := position?_of_numEq h (position?_place hx)
    have hscaled : ((x - mean) * ((100 : Nat) : Binary64)).position? = some 0 :=
      (position?_mul_natCast_eq_zero_iff (by decide) (by decide)).mpr
      ((sub_eq_zero_iff hx mean).mpr h)
    exact Binary64.zero_div hscaled (signed_of_position? hmean (natAbs_place_lt hx)) hne

end

/-! ## Uniform beams -/

namespace Distribution

variable {d : Distribution Binary64} {x : Binary64}

theorem isMeanOfCopies_mean (hx : x.isFinite = true) (hsome : d.particles ≠ [])
    {column : List Binary64}
    (hcolumn : column = List.replicate d.size x) : (mean column).IsMeanOfCopies d.size x := by
  subst hcolumn
  exact isMeanOfCopies hx (List.length_pos_iff.mpr hsome)

/-- Of one value there is one quantity. There must be a particle to have it. -/
theorem forall_mem_map_iff (hsome : d.particles ≠ []) {column : List Binary64}
    (hcolumn : column = List.replicate d.size x) (f : Binary64 → Binary64) (P : Binary64 → Prop) :
    (∀ y ∈ column.map f, P y) ↔ P (f x) := by
  have hne : d.size ≠ 0 := (List.length_pos_iff.mpr hsome).ne'
  subst hcolumn
  simp [List.mem_replicate, hne]

theorem p_eq_replicate (h : ∀ particle ∈ d.particles, particle.p = x) :
    d.p = List.replicate d.size x := by
  refine List.eq_replicate_iff.mpr ⟨List.length_map _, fun y hy => ?_⟩
  obtain ⟨particle, hmem, rfl⟩ := List.mem_map.mp hy
  exact h particle hmem

theorem dt_eq_replicate (h : ∀ particle ∈ d.particles, particle.dt = x) :
    d.dt = List.replicate d.size x := by
  refine List.eq_replicate_iff.mpr ⟨List.length_map _, fun y hy => ?_⟩
  obtain ⟨particle, hmem, rfl⟩ := List.mem_map.mp hy
  exact h particle hmem

/-- **When a uniform beam shows no deviation.** Take particles of one momentum, or of one arrival
time. Their deviations are all zero exactly when the mean is the common value, which it is wherever
the multiples of the value need no rounding; elsewhere it misses the value by no more than one part
in `2 ^ 52` for each particle. -/
theorem derive_uniform (hsome : d.particles ≠ []) (hx : x.isFinite = true) :
    ((∀ particle ∈ d.particles, particle.p = x) →
      (x.numEq (zero .plus) = false →
        ((∀ y ∈ d.derive.fracMomentumDevPct, y.numEq (zero .plus) = true) ↔
          d.baseline.pMean.numEq x = true)) ∧
      d.baseline.pMean.IsMeanOfCopies d.size x) ∧
    ((∀ particle ∈ d.particles, particle.dt = x) →
      ((∀ y ∈ d.derive.centeredTimeFs, y.numEq (zero .plus) = true) ↔
        d.baseline.dtMean.numEq x = true) ∧
      ((∀ y ∈ d.derive.longitudinalOffsetUm, y.numEq (zero .plus) = true) ↔
        d.baseline.dtMean.numEq x = true) ∧
      d.baseline.dtMean.IsMeanOfCopies d.size x) := by
  constructor
  · intro h
    have hcolumn := p_eq_replicate h
    refine ⟨fun hzero => ?_, isMeanOfCopies_mean hx hsome hcolumn⟩
    have hne : x.place ≠ 0 := by
      intro hplace
      have heq := (numEq_zero_iff .plus).mpr (hplace ▸ position?_place hx)
      rw [hzero] at heq
      cases heq
    refine (forall_mem_map_iff hsome hcolumn (fracMomentumDevPct d.baseline.pMean) _).trans ?_
    exact fracMomentumDevPct_eq_zero_iff hx _ hne
  · intro h
    have hcolumn := dt_eq_replicate h
    refine ⟨?_, ?_, isMeanOfCopies_mean hx hsome hcolumn⟩
    · refine (forall_mem_map_iff hsome hcolumn (centeredTimeFs d.baseline.dtMean) _).trans ?_
      exact centeredTimeFs_eq_zero_iff hx _
    · refine (forall_mem_map_iff hsome hcolumn (longitudinalOffsetUm d.baseline.dtMean) _).trans ?_
      exact longitudinalOffsetUm_eq_zero_iff hx _

/-- Sixteen particles of a momentum and an arrival time with few bits. -/
theorem derive_uniform_sixteen :
    let d : Distribution Binary64 := ⟨"initial", List.replicate 16 ⟨0.25, 196.5⟩⟩
    d.derive.fracMomentumDevPct.all (fun y => y.numEq (zero .plus)) = true ∧
      d.derive.centeredTimeFs.all (fun y => y.numEq (zero .plus)) = true := by
  intro d
  have hparticles : ∀ particle ∈ d.particles, particle = ⟨0.25, 196.5⟩ :=
    fun _ => List.eq_of_mem_replicate
  have hmomentum : (196.5 : Binary64).place.natAbs = 393 * 2 ^ 1073 := by decide +kernel
  have htime : (0.25 : Binary64).place.natAbs = 1 * 2 ^ 1072 := by decide +kernel
  obtain ⟨hmomenta, hmean⟩ :=
    (derive_uniform (d := d) (x := 196.5) (by decide) (by decide +kernel)).1
    fun particle hmem => by rw [hparticles particle hmem]
  obtain ⟨htimes, -, hmean'⟩ :=
    (derive_uniform (d := d) (x := 0.25) (by decide) (by decide +kernel)).2
    fun particle hmem => by rw [hparticles particle hmem]
  constructor
  · refine List.all_eq_true.mpr ((hmomenta (by decide +kernel)).mpr (hmean.exact (by decide) ?_))
    exact addsUp_of_significand hmomentum (by decide) (by rw [hmomentum]; decide +kernel)
  · refine List.all_eq_true.mpr (htimes.mpr (hmean'.exact (by decide) ?_))
    exact addsUp_of_significand htime (by decide) (by rw [htime]; decide +kernel)

/-- Three times a tenth is rounded up, and the mean of three tenths is above a tenth. -/
theorem derive_not_uniform :
    let d : Distribution Binary64 := ⟨"initial", List.replicate 3 ⟨0.1, 0.1⟩⟩
    (∀ y ∈ d.derive.fracMomentumDevPct, y.numEq (zero .plus) = false) ∧
      (∀ y ∈ d.derive.centeredTimeFs, y.numEq (zero .plus) = false) ∧
      ∀ y ∈ d.derive.longitudinalOffsetUm, y.numEq (zero .plus) = false := by
  decide +kernel

end Distribution
end Beamline
