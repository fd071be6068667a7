import Mathlib.Tactic
import Beamline.Figure.Comparison

/-!
# Points — each particle's own pair

A series pairs two columns by place, and what is left over of the longer one is dropped without a
word. That is harmless where both columns run along the same particles: then each point is made of
two quantities of one particle, and all that a plot leaves out are points that have no place on it.
The slip runs along the particles of two distributions at once, so there the final particles beyond
the last initial one are lost.

What each series is to show is written down once, plot by plot (`shown`), in quantities of single
particles and without a column in sight.
-/

set_option autoImplicit false

namespace Beamline

/-! ## Columns -/

/-- **Two columns make a distribution if they are equally long**, and they are its columns. -/
theorem Distribution.ofColumns_eq_ok_iff {α : Type} {name : String} {dt p : List α}
    {d : Distribution α} :
    ofColumns name dt p = .ok d ↔
      dt.length = p.length ∧ d.name = name ∧ d.dt = dt ∧ d.p = p := by
  unfold ofColumns
  constructor
  · intro h
    split at h
    next hlength =>
      cases h
      rw [← List.map_uncurry_zip_eq_zipWith]
      refine ⟨hlength, rfl, ?_, ?_⟩
      · rw [Distribution.dt, List.map_map]
        exact List.map_fst_zip hlength.le
      · rw [Distribution.p, List.map_map]
        exact List.map_snd_zip hlength.ge
    next => cases h
  · rintro ⟨hlength, rfl, rfl, rfl⟩
    rw [if_pos hlength]
    simp [Distribution.dt, Distribution.p, List.zipWith_map, List.zipWith_self]

/-- The quantities that are plotted of a particle. -/
inductive Coordinate where
  | centeredTime
  | time
  | energy
  | centeredOffset
  | offset
  | deviation

namespace Coordinate

/-- A quantity of a particle, given the means of its distribution. -/
def of (b : Baseline Binary64) (particle : Particle Binary64) : Coordinate → Binary64
  | centeredTime => centeredTimeFs b.dtMean particle.dt
  | time => timeFs particle.dt
  | energy => energyGeV particle.p
  | centeredOffset => longitudinalOffsetUm b.dtMean particle.dt
  | offset => rawLongitudinalOffsetUm particle.dt
  | deviation => fracMomentumDevPct b.pMean particle.p

/-- A quantity along the particles of a distribution. -/
def column (d : Distribution Binary64) (q : Coordinate) : List Binary64 :=
  d.particles.map fun particle => q.of d.baseline particle

@[simp] theorem length_column (d : Distribution Binary64) (q : Coordinate) :
    (q.column d).length = d.size :=
  List.length_map _

end Coordinate

theorem Distribution.derive_eq (d : Distribution Binary64) :
    d.derive = {
      name := d.name
      baseline := d.baseline
      centeredTimeFs := Coordinate.centeredTime.column d
      timeFs := Coordinate.time.column d
      energyGeV := Coordinate.energy.column d
      longitudinalOffsetUm := Coordinate.centeredOffset.column d
      rawLongitudinalOffsetUm := Coordinate.offset.column d
      fracMomentumDevPct := Coordinate.deviation.column d } := by
  simp only [derive, dt, p, List.map_map]
  rfl

/-! ## What is shown -/

/-- What a series shows. -/
inductive Shown where
  /-- Two quantities of each particle of a distribution. -/
  | own (d : Distribution Binary64) (x y : Coordinate)
  /-- How far each particle has slipped, and its momentum deviation in the end. -/
  | slip (initial final : Distribution Binary64)

namespace Shown

/-- The pairs to be shown, one for each particle and in the order of the particles. -/
def pairs : Shown → List (Binary64 × Binary64)
  | own d x y => d.particles.map fun particle =>
    (x.of d.baseline particle, y.of d.baseline particle)
  | slip initial final =>
    List.zipWith
      (fun last first => (slipUm last.dt first.dt, Coordinate.deviation.of final.baseline last))
      final.particles initial.particles

/-- The lengths of the two columns. -/
def lengths : Shown → Nat × Nat
  | own d _ _ => (d.size, d.size)
  | slip initial final => (min final.size initial.size, final.size)

end Shown

/-- A series shows all of the pairs that it is to show, except those without a place on the plot. -/
structure Scatter.Shows (s : Scatter) (what : Shown) : Prop where
  lengths_eq : (s.x.length, s.y.length) = what.lengths
  points_eq : s.points = what.pairs.filter fun point => point.1.isFinite && point.2.isFinite

namespace Scatter

variable (label : Option String) (colour : Colour)

theorem shows_own (d : Distribution Binary64) (x y : Coordinate) :
    Shows ⟨label, colour, x.column d, y.column d⟩ (.own d x y) where
  lengths_eq := by simp [Shown.lengths]
  points_eq := by
    unfold points Coordinate.column
    rw [List.zip_map']
    rfl

/-- A column that runs along the first of two lists is not cut any further than the lists cut each
other. -/
theorem zip_zipWith_map {α β γ δ : Type} (f : α → β → γ) (g : α → δ) (as : List α) (bs : List β) :
    (List.zipWith f as bs).zip (as.map g) = List.zipWith (fun a b => (f a b, g a)) as bs := by
  induction as generalizing bs with
  | nil => rfl
  | cons a as ih =>
    cases bs with
    | nil => rfl
    | cons b bs =>
      rw [List.zipWith_cons_cons, List.map_cons, List.zip_cons_cons, List.zipWith_cons_cons, ih]

theorem shows_slip (initial final : Distribution Binary64) :
    Shows ⟨label, colour, deltaZUm final initial, Coordinate.deviation.column final⟩
      (.slip initial final) where
  lengths_eq := by simp [Shown.lengths, deltaZUm, Distribution.dt, Distribution.size]
  points_eq := by
    unfold points Coordinate.column deltaZUm Distribution.dt
    rw [List.zipWith_map, zip_zipWith_map]
    rfl

end Scatter

/-- A plot has the name that it is to have, and each of its series shows what it is to show. -/
def Plot.Shows (plot : Plot) (what : String × List Shown) : Prop :=
  plot.name = what.1 ∧ List.Forall₂ Scatter.Shows plot.series what.2

/-! ## The plots of two distributions -/

namespace Comparison

/-- The plots of two distributions. -/
def plotsOf (initial final : Distribution Binary64) : List Plot :=
  plots initial.derive final.derive (deltaZUm final initial)

open Coordinate in
/-- What is to be shown, by the names of the plots. -/
def shown (initial final : Distribution Binary64) : List (String × List Shown) :=
  [ ("t-p_norm_py", [.own initial centeredTime energy, .own final centeredTime energy]),
    ("z-delta_norm_py",
      [.own initial centeredOffset deviation, .own final centeredOffset deviation]),
    ("t-p_end_py", [.own final time energy]),
    ("z-delta_end_py", [.own final offset deviation]),
    ("delz-delta_py", [.slip initial final]),
    ("t-p_initial_py", [.own initial time energy]),
    ("z-delta_initial_py", [.own initial offset deviation]) ]

theorem plotsOf_shows (initial final : Distribution Binary64) :
    List.Forall₂ Plot.Shows (plotsOf initial final) (shown initial final) := by
  unfold plotsOf plots shown
  rw [initial.derive_eq, final.derive_eq]
  refine .cons ⟨rfl, ?_⟩ <| .cons ⟨rfl, ?_⟩ <| .cons ⟨rfl, ?_⟩ <| .cons ⟨rfl, ?_⟩ <|
    .cons ⟨rfl, ?_⟩ <| .cons ⟨rfl, ?_⟩ <| .cons ⟨rfl, ?_⟩ .nil
  · exact .cons (Scatter.shows_own ..) (.cons (Scatter.shows_own ..) .nil)
  · exact .cons (Scatter.shows_own ..) (.cons (Scatter.shows_own ..) .nil)
  · exact .cons (Scatter.shows_own ..) .nil
  · exact .cons (Scatter.shows_own ..) .nil
  · exact .cons (Scatter.shows_slip ..) .nil
  · exact .cons (Scatter.shows_own ..) .nil
  · exact .cons (Scatter.shows_own ..) .nil

/-- Where pairing drops a record, it is of a final particle beyond the last initial one. -/
theorem truncates_iff (initial final : Distribution Binary64) :
    ∀ plot ∈ plotsOf initial final, ∀ s ∈ plot.series,
      ((s.x.zip s.y).length < max s.x.length s.y.length ↔
        plot.name = "delz-delta_py" ∧ initial.size < final.size) := by
  unfold plotsOf plots
  rw [initial.derive_eq, final.derive_eq]
  simp [initialSeries, finalSeries, soleSeries, deltaZUm, Distribution.dt, Distribution.size]

/-- **Every point is a particle's own pair, and no particle with a place on the plot is lost.** Take
any two distributions, which may be built of any equally long columns. Each series has the columns
of its particles and draws the pairs that it is to show, in order, all but those with a coordinate
that is not finite. Only where the slip is shown does pairing drop a record, and only if there are
more final particles than initial ones. -/
theorem plotsOf_points (initial final : Distribution Binary64) :
    (∀ d ∈ [initial, final], ∀ name dt p, Distribution.ofColumns name dt p = .ok d ↔
      dt.length = p.length ∧ d.name = name ∧ d.dt = dt ∧ d.p = p) ∧
    List.Forall₂ Plot.Shows (plotsOf initial final) (shown initial final) ∧
    ∀ plot ∈ plotsOf initial final, ∀ s ∈ plot.series,
      ((s.x.zip s.y).length < max s.x.length s.y.length ↔
        plot.name = "delz-delta_py" ∧ initial.size < final.size) :=
  ⟨fun _ _ _ _ _ => Distribution.ofColumns_eq_ok_iff, plotsOf_shows initial final,
    truncates_iff initial final⟩

end Comparison
end Beamline
