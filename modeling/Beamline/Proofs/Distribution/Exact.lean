import Mathlib.Tactic
import Mathlib.Algebra.BigOperators.Group.List.Basic
import Beamline.Beam.Distribution

/-!
# Exact columns — seven formulas, one geometry

The formulas of the quantities are written one by one, each with constants and a sign of its own.
Read over rational numbers they have to tell one story: times are measured from their own mean, an
offset is a time at the speed of light and against the direction of flight, a percentage of momentum
is one of energy, and what a particle slips is the difference of its two offsets
(`Distribution.derive_coheres`).

Each formula is a factor on an arrival time or a momentum, or on its deviation from the mean. So
little has to be known of a mean: it scales with the values (`mean_map_mul`), and the deviations
from it cancel (`sum_deviations`).
-/

set_option autoImplicit false

namespace Beamline

/-! ## Exact means -/

theorem total_eq_sum (values : List ℚ) : total values = values.sum := by
  unfold total
  rw [List.sum_eq_foldl]
  rfl

theorem mean_eq (values : List ℚ) : mean values = values.sum / values.length := by
  unfold mean
  rw [total_eq_sum]

theorem length_mul_mean (values : List ℚ) : values.length * mean values = values.sum := by
  rcases eq_or_ne values [] with rfl | h
  · simp
  · have hlength : (values.length : ℚ) ≠ 0 := by exact_mod_cast mt List.length_eq_zero_iff.mp h
    rw [mean_eq, mul_div_cancel₀ _ hlength]

theorem mean_map_mul (values : List ℚ) (k : ℚ) : mean (values.map (· * k)) = mean values * k := by
  have hsum : (values.map (· * k)).sum = values.sum * k := by
    rw [List.sum_map_mul_right, List.map_id']
  rw [mean_eq, mean_eq, hsum, List.length_map, div_mul_eq_mul_div]

/-- **Deviations from the mean cancel**, in whatever unit they are taken. -/
theorem sum_deviations (values : List ℚ) (k : ℚ) :
    (values.map fun x => (x - mean values) * k).sum = 0 := by
  have hsum : ∀ m : ℚ, (values.map fun x => (x - m) * k).sum =
      (values.sum - values.length * m) * k := by
    intro m
    simp only [sub_eq_add_neg]
    rw [List.sum_map_mul_right, List.sum_map_add]
    simp
  rw [hsum, length_mul_mean, sub_self, zero_mul]

/-- Deviations in some unit are the deviations of what is measured in it. -/
theorem map_deviations (values : List ℚ) (k : ℚ) :
    values.map (fun x => (x - mean values) * k) =
      (values.map (· * k)).map (· - mean (values.map (· * k))) := by
  rw [mean_map_mul, List.map_map]
  exact List.map_congr_left fun x _ => sub_mul x (mean values) k

/-! ## Each formula as a factor -/

/-- The way along the beam, in micrometres, for a second of arrival time. Later is further
behind. -/
def micrometresPerSecond : ℚ := -(3 * 10 ^ 14)

section

variable (m p t u : ℚ)

theorem femtosecondsPerSecond_eq : (femtosecondsPerSecond : ℚ) = 10 ^ 15 := by
  norm_num [femtosecondsPerSecond]

theorem speedOfLight_mul_micrometresPerMetre :
    (speedOfLight : ℚ) * micrometresPerMetre = -micrometresPerSecond := by
  norm_num [speedOfLight, micrometresPerMetre, micrometresPerSecond]

theorem electronMassMeV_div_mevPerGeV : (electronMassMeV : ℚ) / mevPerGeV = 511 / 10 ^ 6 := by
  norm_num [electronMassMeV, mevPerGeV]

theorem centeredTimeFs_eq : centeredTimeFs m t = (t - m) * 10 ^ 15 :=
  congrArg ((t - m) * ·) femtosecondsPerSecond_eq

theorem timeFs_eq : timeFs t = t * 10 ^ 15 :=
  congrArg (t * ·) femtosecondsPerSecond_eq

theorem energyGeV_eq : energyGeV p = p * (511 / 10 ^ 6) := by
  rw [← electronMassMeV_div_mevPerGeV]
  exact mul_div_assoc p electronMassMeV mevPerGeV

/-- An arrival time, negated and turned into a way. -/
theorem neg_mul_speedOfLight :
    -t * speedOfLight * micrometresPerMetre = t * micrometresPerSecond := by
  rw [mul_assoc, speedOfLight_mul_micrometresPerMetre, neg_mul_neg]

theorem longitudinalOffsetUm_eq : longitudinalOffsetUm m t = (t - m) * micrometresPerSecond :=
  neg_mul_speedOfLight (t - m)

theorem rawLongitudinalOffsetUm_eq : rawLongitudinalOffsetUm t = t * micrometresPerSecond :=
  neg_mul_speedOfLight t

theorem slipUm_eq : slipUm t u = (t - u) * micrometresPerSecond :=
  neg_mul_speedOfLight (t - u)

theorem fracMomentumDevPct_eq : fracMomentumDevPct m p = (p - m) * (100 / m) := by
  have hhundred : (1e2 : ℚ) = 100 := by norm_num
  show 1e2 * (p - m) / m = _
  rw [hhundred]
  ring

end

/-! ## The columns of a beam -/

namespace Distribution

section

variable (d : Distribution ℚ)

theorem centeredTimeFs_column :
    d.derive.centeredTimeFs = d.dt.map fun t => (t - mean d.dt) * 10 ^ 15 :=
  List.map_congr_left fun t _ => centeredTimeFs_eq (mean d.dt) t

theorem timeFs_column : d.derive.timeFs = d.dt.map (· * 10 ^ 15) :=
  List.map_congr_left fun t _ => timeFs_eq t

theorem energyGeV_column : d.derive.energyGeV = d.p.map (· * (511 / 10 ^ 6)) :=
  List.map_congr_left fun p _ => energyGeV_eq p

theorem longitudinalOffsetUm_column :
    d.derive.longitudinalOffsetUm = d.dt.map fun t => (t - mean d.dt) * micrometresPerSecond :=
  List.map_congr_left fun t _ => longitudinalOffsetUm_eq (mean d.dt) t

theorem rawLongitudinalOffsetUm_column :
    d.derive.rawLongitudinalOffsetUm = d.dt.map (· * micrometresPerSecond) :=
  List.map_congr_left fun t _ => rawLongitudinalOffsetUm_eq t

theorem fracMomentumDevPct_column :
    d.derive.fracMomentumDevPct = d.p.map fun p => (p - mean d.p) * (100 / mean d.p) :=
  List.map_congr_left fun p _ => fracMomentumDevPct_eq (mean d.p) p

/-- All columns at once, by what was measured. -/
theorem derive_exact : d.derive = {
    name := d.name
    baseline := ⟨mean d.dt, mean d.p⟩
    centeredTimeFs := d.dt.map fun t => (t - mean d.dt) * 10 ^ 15
    timeFs := d.dt.map (· * 10 ^ 15)
    energyGeV := d.p.map (· * (511 / 10 ^ 6))
    longitudinalOffsetUm := d.dt.map fun t => (t - mean d.dt) * micrometresPerSecond
    rawLongitudinalOffsetUm := d.dt.map (· * micrometresPerSecond)
    fracMomentumDevPct := d.p.map fun p => (p - mean d.p) * (100 / mean d.p) } := by
  simp only [← centeredTimeFs_column, ← timeFs_column, ← energyGeV_column,
    ← longitudinalOffsetUm_column, ← rawLongitudinalOffsetUm_column, ← fracMomentumDevPct_column]
  rfl

/-- The columns of a beam, each by another of them or by what was measured. Where a mean is zero,
percentages of it are quotients by zero, and those are zero here; so nothing has to be asked of a
mean. -/
structure Coheres (d : Distribution ℚ) : Prop where
  time : d.derive.timeFs = d.dt.map (10 ^ 15 * ·)
  energy : d.derive.energyGeV = d.p.map (511 / 10 ^ 6 * ·)
  sum_centeredTime : d.derive.centeredTimeFs.sum = 0
  sum_centeredOffset : d.derive.longitudinalOffsetUm.sum = 0
  sum_deviation : d.derive.fracMomentumDevPct.sum = 0
  centeredTime : d.derive.centeredTimeFs = d.derive.timeFs.map (· - mean d.derive.timeFs)
  centeredOffset : d.derive.longitudinalOffsetUm =
    d.derive.rawLongitudinalOffsetUm.map (· - mean d.derive.rawLongitudinalOffsetUm)
  centeredOffset_of_time :
    d.derive.longitudinalOffsetUm = d.derive.centeredTimeFs.map (-(3 / 10) * ·)
  offset_of_time : d.derive.rawLongitudinalOffsetUm = d.derive.timeFs.map (-(3 / 10) * ·)
  deviation_of_energy : d.derive.fracMomentumDevPct =
    d.derive.energyGeV.map fun e => 100 * (e - mean d.derive.energyGeV) / mean d.derive.energyGeV

theorem deviation_of_energy : d.derive.fracMomentumDevPct =
    d.derive.energyGeV.map fun e =>
      100 * (e - mean d.derive.energyGeV) / mean d.derive.energyGeV := by
  have hunit : (511 / 10 ^ 6 : ℚ) ≠ 0 := by norm_num
  rw [fracMomentumDevPct_column, energyGeV_column, mean_map_mul, List.map_map]
  refine List.map_congr_left fun p _ => ?_
  rw [Function.comp_apply, ← sub_mul, ← mul_assoc, mul_div_mul_right _ _ hunit]
  ring

theorem coheres : d.Coheres where
  time := by
    simp only [timeFs_column, mul_comm]
  energy := by
    simp only [energyGeV_column, mul_comm]
  sum_centeredTime := by
    rw [centeredTimeFs_column]
    exact sum_deviations d.dt _
  sum_centeredOffset := by
    rw [longitudinalOffsetUm_column]
    exact sum_deviations d.dt _
  sum_deviation := by
    rw [fracMomentumDevPct_column]
    exact sum_deviations d.p _
  centeredTime := by
    rw [centeredTimeFs_column, timeFs_column]
    exact map_deviations d.dt _
  centeredOffset := by
    rw [longitudinalOffsetUm_column, rawLongitudinalOffsetUm_column]
    exact map_deviations d.dt _
  centeredOffset_of_time := by
    rw [longitudinalOffsetUm_column, centeredTimeFs_column, List.map_map]
    refine List.map_congr_left fun t _ => ?_
    rw [Function.comp_apply, micrometresPerSecond]
    ring
  offset_of_time := by
    rw [rawLongitudinalOffsetUm_column, timeFs_column, List.map_map]
    refine List.map_congr_left fun t _ => ?_
    rw [Function.comp_apply, micrometresPerSecond]
    ring
  deviation_of_energy := d.deviation_of_energy

end

/-- What a particle slips is the difference of its two offsets. -/
theorem deltaZUm_eq (final initial : Distribution ℚ) :
    deltaZUm final initial =
      List.zipWith (· - ·) final.derive.rawLongitudinalOffsetUm
        initial.derive.rawLongitudinalOffsetUm := by
  have hslip : (slipUm : ℚ → ℚ → ℚ) = fun t u =>
      t * micrometresPerSecond - u * micrometresPerSecond := by
    funext t u
    rw [slipUm_eq, sub_mul]
  rw [rawLongitudinalOffsetUm_column, rawLongitudinalOffsetUm_column, List.zipWith_map, deltaZUm,
    hslip]

/-- **The columns of a beam describe one geometry.** Centred times and offsets are times and offsets
measured from their means, so that they add up to zero, as percentages of momentum do; an offset is
three tenths of a micrometre against the direction of flight for each femtosecond; a percentage of
momentum is one of energy. What the particles of two beams slip is, record by record, what lies
between their offsets. -/
theorem derive_coheres :
    (∀ d : Distribution ℚ, d.Coheres) ∧
    ∀ final initial : Distribution ℚ, deltaZUm final initial =
      List.zipWith (· - ·) final.derive.rawLongitudinalOffsetUm
        initial.derive.rawLongitudinalOffsetUm :=
  ⟨coheres, deltaZUm_eq⟩

-- A femtosecond late is three tenths of a micrometre behind.
example : (Distribution.mk "initial" [⟨-1e-15, 1⟩, ⟨1e-15, 1⟩]).derive.longitudinalOffsetUm =
    [(3 / 10 : ℚ), -(3 / 10)] := by
  decide +kernel

end Distribution
end Beamline
