import Beamline.Proofs.Distribution.Exact

/-!
# Symmetries — what a beam looks like from elsewhere

Three changes of a table of particles are no changes of the beam: its records can stand in another
order, its clock can be set to another zero, and its momenta can be counted in another unit. Read
over rational numbers, what becomes of the columns is known for each of them, column by column and
with nothing left out.

Records in another order are the columns in that order (`derive_inOrder`): every column is read off
the records one at a time, and the means do not know of an order. A clock that is set differently
shows in times and offsets alone (`derive_delayed`), and another unit in energies alone
(`derive_scaled`); what is measured against a mean moves with it.
-/

set_option autoImplicit false

namespace Beamline

/-! ## Records in another order -/

section

variable {α β : Type} {places : List Nat}

/-- The entries of a list that stand at the places given, in the order of the places. -/
def inOrder (places : List Nat) (l : List α) : List α := places.filterMap (l[·]?)

theorem inOrder_map (places : List Nat) (f : α → β) (l : List α) :
    inOrder places (l.map f) = (inOrder places l).map f := by
  unfold inOrder
  rw [List.map_filterMap]
  simp only [List.getElem?_map]

theorem inOrder_range (l : List α) : inOrder (List.range l.length) l = l := by
  unfold inOrder
  induction l with
  | nil => rfl
  | cons a l ih =>
    rw [List.length_cons, List.range_succ_eq_map, List.filterMap_cons_some List.getElem?_cons_zero,
      List.filterMap_map]
    exact congrArg (a :: ·) ih

/-- Places that are all places in some order give all entries in some order. -/
theorem inOrder_perm {l : List α} (h : places.Perm (List.range l.length)) :
    (inOrder places l).Perm l :=
  (h.filterMap _).trans (List.Perm.of_eq (inOrder_range l))

end

theorem mean_perm {values values' : List ℚ} (h : values.Perm values') :
    mean values = mean values' := by
  rw [mean_eq, mean_eq, h.sum_eq, h.length_eq]

theorem mean_map_add {values : List ℚ} (h : values ≠ []) (t : ℚ) :
    mean (values.map (· + t)) = mean values + t := by
  have hlength : (values.length : ℚ) ≠ 0 := by exact_mod_cast mt List.length_eq_zero_iff.mp h
  have hsum : (values.map (· + t)).sum = values.sum + values.length * t := by
    rw [List.sum_map_add, List.map_id', List.map_const', List.sum_replicate, nsmul_eq_mul]
  rw [mean_eq, mean_eq, hsum, List.length_map, add_div, mul_div_cancel_left₀ _ hlength]

/-! ## Changes of a beam -/

section

variable {α : Type}

/-- The same columns, with the records in another order. -/
def Derived.inOrder (places : List Nat) (c : Derived α) : Derived α where
  name := c.name
  baseline := c.baseline
  centeredTimeFs := Beamline.inOrder places c.centeredTimeFs
  timeFs := Beamline.inOrder places c.timeFs
  energyGeV := Beamline.inOrder places c.energyGeV
  longitudinalOffsetUm := Beamline.inOrder places c.longitudinalOffsetUm
  rawLongitudinalOffsetUm := Beamline.inOrder places c.rawLongitudinalOffsetUm
  fracMomentumDevPct := Beamline.inOrder places c.fracMomentumDevPct

namespace Distribution

/-- The same particles, recorded in another order. -/
def inOrder (places : List Nat) (d : Distribution α) : Distribution α :=
  { d with particles := Beamline.inOrder places d.particles }

/-- The same beam by a clock that is ahead. -/
def delayed [Add α] (t : α) (d : Distribution α) : Distribution α :=
  { d with particles := d.particles.map fun q => { q with dt := q.dt + t } }

/-- The same beam with its momenta in another unit. -/
def scaled [Mul α] (k : α) (d : Distribution α) : Distribution α :=
  { d with particles := d.particles.map fun q => { q with p := q.p * k } }

end Distribution

end

namespace Distribution

section

variable {d : Distribution ℚ}

theorem derive_inOrder {places : List Nat} (h : places.Perm (List.range d.size)) :
    (d.inOrder places).derive = d.derive.inOrder places := by
  have hdt : (d.inOrder places).dt = Beamline.inOrder places d.dt := (inOrder_map places _ _).symm
  have hp : (d.inOrder places).p = Beamline.inOrder places d.p := (inOrder_map places _ _).symm
  have hbaseline : (d.inOrder places).baseline = d.baseline := by
    unfold baseline
    rw [hdt, hp, mean_perm (inOrder_perm (d.length_dt ▸ h)),
      mean_perm (inOrder_perm (d.length_p ▸ h))]
  unfold derive Derived.inOrder
  dsimp only
  rw [hbaseline, hdt, hp]
  simp only [inOrder_map]
  rfl

/-- A clock that is ahead shows in times and offsets, and in the mean that the centred ones are
measured from. -/
theorem derive_delayed (hsome : d.particles ≠ []) (t : ℚ) :
    (d.delayed t).derive = { d.derive with
      baseline := { d.baseline with dtMean := d.baseline.dtMean + t }
      timeFs := d.derive.timeFs.map (· + t * 10 ^ 15)
      rawLongitudinalOffsetUm :=
        d.derive.rawLongitudinalOffsetUm.map (· + t * micrometresPerSecond) } := by
  have hdt : (d.delayed t).dt = d.dt.map (· + t) := by simp [delayed, dt]
  have hp : (d.delayed t).p = d.p := by simp [delayed, p]
  have hmean : mean (d.dt.map (· + t)) = mean d.dt + t := mean_map_add (by simpa [dt] using hsome) t
  have hcentred : ∀ k : ℚ, ((d.dt.map (· + t)).map fun u => (u - (mean d.dt + t)) * k) =
      d.dt.map fun u => (u - mean d.dt) * k := by
    intro k
    rw [List.map_map]
    exact List.map_congr_left fun u _ => congrArg (· * k) (add_sub_add_right_eq_sub u (mean d.dt) t)
  have hraw : ∀ k : ℚ, (d.dt.map (· + t)).map (· * k) = (d.dt.map (· * k)).map (· + t * k) := by
    intro k
    rw [List.map_map, List.map_map]
    exact List.map_congr_left fun u _ => add_mul u t k
  rw [derive_exact, derive_exact, hdt, hp, hmean]
  simp only [hcentred, hraw]
  rfl

/-- Another unit of momentum shows in energies, and in the mean that percentages are of. -/
theorem derive_scaled {k : ℚ} (hk : k ≠ 0) :
    (d.scaled k).derive = { d.derive with
      baseline := { d.baseline with pMean := d.baseline.pMean * k }
      energyGeV := d.derive.energyGeV.map (· * k) } := by
  have hdt : (d.scaled k).dt = d.dt := by simp [scaled, dt]
  have hp : (d.scaled k).p = d.p.map (· * k) := by simp [scaled, p]
  have henergy : (d.p.map (· * k)).map (· * (511 / 10 ^ 6 : ℚ)) =
      (d.p.map (· * (511 / 10 ^ 6))).map (· * k) := by
    rw [List.map_map, List.map_map]
    exact List.map_congr_left fun p _ => mul_right_comm p k _
  have hdeviation : ((d.p.map (· * k)).map fun p => (p - mean d.p * k) * (100 / (mean d.p * k))) =
      d.p.map fun p => (p - mean d.p) * (100 / mean d.p) := by
    rw [List.map_map]
    refine List.map_congr_left fun p _ => ?_
    rw [Function.comp_apply, ← sub_mul, mul_div_assoc', mul_div_assoc', mul_right_comm,
      mul_div_mul_right _ _ hk]
  rw [derive_exact, derive_exact, hdt, hp, mean_map_mul, henergy, hdeviation]
  rfl

end

/-- **What the columns of a beam do not show, and what they do.** Records in another order give the
columns in that order and the same means. A clock that is ahead by some time adds it to the mean
arrival time, and what it amounts to to each time and each offset; another unit of momentum is a
factor on the mean momentum and on each energy. Everything else stays as it is. -/
theorem derive_symmetric {d : Distribution ℚ} (hsome : d.particles ≠ []) :
    (∀ places : List Nat, places.Perm (List.range d.size) →
      (d.inOrder places).derive = d.derive.inOrder places) ∧
    (∀ t : ℚ, (d.delayed t).derive = { d.derive with
      baseline := { d.baseline with dtMean := d.baseline.dtMean + t }
      timeFs := d.derive.timeFs.map (· + t * 10 ^ 15)
      rawLongitudinalOffsetUm :=
        d.derive.rawLongitudinalOffsetUm.map (· + t * micrometresPerSecond) }) ∧
    ∀ k : ℚ, k ≠ 0 → (d.scaled k).derive = { d.derive with
      baseline := { d.baseline with pMean := d.baseline.pMean * k }
      energyGeV := d.derive.energyGeV.map (· * k) } :=
  ⟨fun _ h => derive_inOrder h, derive_delayed hsome, fun _ hk => derive_scaled hk⟩

/-- Two particles, exchanged, a second later and at twice the momentum. -/
theorem derive_symmetric_two :
    let d : Distribution ℚ := ⟨"initial", [⟨1, 2⟩, ⟨3, 5⟩]⟩
    (d.inOrder [1, 0]).derive.centeredTimeFs = [10 ^ 15, -10 ^ 15] ∧
      (d.delayed 1).derive.centeredTimeFs = [-10 ^ 15, 10 ^ 15] ∧
      (d.scaled 2).derive.fracMomentumDevPct = d.derive.fracMomentumDevPct := by
  intro d
  obtain ⟨horder, hdelay, hscale⟩ := derive_symmetric (d := d) (by decide)
  rw [horder [1, 0] (by decide), hdelay 1, hscale 2 (by decide)]
  exact ⟨by decide +kernel, by decide +kernel, rfl⟩

end Distribution
end Beamline
