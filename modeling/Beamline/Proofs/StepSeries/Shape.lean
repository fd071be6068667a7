import Beamline.Proofs.StepSeries.Echo
import Beamline.Proofs.StepSeries.Encodings

/-!
# Shapes — which lists of values are a series

A list of values becomes a series by being told its shape. It is refused for one of two reasons, and
the first is asked for first: that the values do not fill the shape, or that there are too few
channels to plot (`ofValues_cases`). Counts are counts here and nothing wraps around, so values fill
a shape when its lengths multiply to their number, and the lengths other than zero do not multiply
to more than can be addressed.

What is then read along a particle is every so-manieth value of the list. A length of zero is no
exception: a series without particles has no tracks, and one without steps has empty ones (`Holds`).
-/

set_option autoImplicit false

namespace Beamline
namespace StepSeries

/-- So many values fill a shape that can be addressed. -/
def Fills (count steps particles channels : Nat) : Prop :=
  steps * particles * channels = count ∧
    ([steps, particles, channels].filter (· ≠ 0)).prod ≤ 2 ^ 63 - 1

/-- A series is what a list of values holds, with the channel running fastest and the step
slowest. -/
structure Holds (s : StepSeries) (steps particles channels : Nat) (values : List Binary64) :
    Prop where
  steps_eq : s.steps = steps
  particles_eq : s.particles = particles
  length_channel : ∀ c, (s.channel c).length = particles
  length_track : ∀ c, ∀ track ∈ s.channel c, track.length = steps
  entry : ∀ c, ∀ particle < particles, ∀ step < steps, ∃ x,
    ((s.channel c)[particle]?.bind fun track => track[step]?) = some x ∧
      values[(step * particles + particle) * channels + c.index]? = some x

section

variable {steps particles channels : Nat} {values : List Binary64}

theorem fills_iff : (Shape.addressable [steps, particles, channels] = true ∧
    values.toArray.size = Shape.elements [steps, particles, channels]) ↔
      Fills values.length steps particles channels := by
  unfold Fills
  rw [Shape.elements_three, and_comm, eq_comm]
  exact and_congr Iff.rfl decide_eq_true_iff

theorem holds_ofRowMajor (h : values.toArray.size = steps * particles * channels)
    (henough : Channel.all.length ≤ channels) :
    Holds ⟨Cube.ofRowMajor steps particles channels values.toArray h, henough⟩ steps particles
      channels values where
  steps_eq := rfl
  particles_eq := rfl
  length_channel := fun c => StepSeries.length_channel _ c
  length_track := fun c track htrack => length_of_mem_channel htrack
  entry := by
    intro c particle hparticle step hstep
    refine ⟨_,
      getElem?_channel ⟨Cube.ofRowMajor steps particles channels values.toArray h, henough⟩ c
      ⟨particle, hparticle⟩ ⟨step, hstep⟩, ?_⟩
    have hinside := Cube.pair_lt (Cube.pair_lt hstep hparticle) (c.index_lt.trans_le henough)
    rw [← h] at hinside
    exact List.getElem?_eq_getElem hinside

/-- The three ways of telling a list its shape. -/
theorem ofValues_cases (steps particles channels : Nat) (values : List Binary64) :
    (¬ Fills values.length steps particles channels ∧
      ofValues steps particles channels values = .error ⟨[.shapeSeries], .shape, none⟩) ∨
    (Fills values.length steps particles channels ∧ channels < 2 ∧
      ofValues steps particles channels values = .error (Failure.of (.tooFewChannels channels))) ∨
    (Fills values.length steps particles channels ∧ 2 ≤ channels ∧
      ∃ s, ofValues steps particles channels values = .ok s ∧
        s.Holds steps particles channels values) := by
  by_cases hfills : Fills values.length steps particles channels
  · have h := fills_iff.mpr hfills
    have hsize := h.2.trans (Shape.elements_three ..)
    have hcube : ofValues steps particles channels values =
        ofCube (Cube.ofRowMajor steps particles channels values.toArray hsize) := dif_pos h
    right
    rw [hcube]
    rcases Nat.lt_or_ge channels 2 with hfew | henough
    · exact Or.inl ⟨hfills, hfew, dif_neg (Nat.not_le.mpr hfew)⟩
    · exact Or.inr ⟨hfills, henough, _, dif_pos henough, holds_ofRowMajor hsize henough⟩
  · exact Or.inl ⟨hfills, dif_neg (mt fills_iff.mp hfills)⟩

end

/-- **Values are a series exactly if they fill a shape with the channels that are plotted.** If they
do not fill it they are refused for that, however few the channels; if they do, too few channels
are. A series that they are has the numbers of steps and particles that it was told, and each of its
channels the values that stand at the channel's place in the list. -/
theorem ofValues_shape (steps particles channels : Nat) (values : List Binary64) :
    ((∃ s, ofValues steps particles channels values = .ok s) ↔
      Fills values.length steps particles channels ∧ 2 ≤ channels) ∧
    (¬ Fills values.length steps particles channels →
      ∃ f, ofValues steps particles channels values = .error f ∧ f.cause = .shape ∧
        f.headline = "Step series values do not match the requested shape") ∧
    (Fills values.length steps particles channels → channels < 2 →
      ∃ f, ofValues steps particles channels values = .error f ∧
        f.cause = .tooFewChannels channels ∧
        f.headline = s!"Step series needs at least 2 channels, found {channels}") ∧
    ∀ s, ofValues steps particles channels values = .ok s →
      s.Holds steps particles channels values := by
  rcases ofValues_cases steps particles channels values with ⟨hfills, h⟩ | ⟨hfills, hfew, h⟩ |
    ⟨hfills, henough, s, h, hholds⟩
  · rw [h]
    refine ⟨iff_of_false ?_ fun hgood => hfills hgood.1, fun _ => ⟨_, rfl, rfl, rfl⟩,
      fun hgood => absurd hgood hfills, fun s hs => by cases hs⟩
    rintro ⟨s, ⟨⟩⟩
  · rw [h]
    refine ⟨iff_of_false ?_ fun hgood => Nat.not_le.mpr hfew hgood.2,
      fun hbad => absurd hfills hbad,
      fun _ _ => ⟨_, rfl, rfl, rfl⟩, fun s hs => by cases hs⟩
    rintro ⟨s, ⟨⟩⟩
  · rw [h]
    refine ⟨iff_of_true ⟨s, rfl⟩ ⟨hfills, henough⟩, fun hbad => absurd hfills hbad,
      fun _ hfew => absurd henough (Nat.not_le.mpr hfew), fun r hr => ?_⟩
    cases hr
    exact hholds

-- Three steps of two particles with two channels each.
example :
    (ofValues 3 2 2 ((List.range 12).map fun n => (n : Binary64))).toOption.map
      (channel · .energyDeviation) =
    some [[((1 : Nat) : Binary64), ((5 : Nat) : Binary64), ((9 : Nat) : Binary64)],
      [((3 : Nat) : Binary64), ((7 : Nat) : Binary64), ((11 : Nat) : Binary64)]] := by
  decide +kernel

end StepSeries
end Beamline
