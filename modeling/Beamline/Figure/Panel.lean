import Beamline.Beam.StepSeries
import Beamline.Figure.Drawing

/-!
# Panels — one chart per channel

The step figure stacks a panel for each channel, all against the number of the step. A panel has a
series for each particle, and a particle has the same colour in all of them.
-/

set_option autoImplicit false

namespace Beamline
namespace Channel

def title : Channel → String
  | position => "Time deviation"
  | energyDeviation => "Energy deviation"

/-- What a panel's vertical axis says. -/
def yLabel : Channel → String
  | position => "Z (m)"
  | energyDeviation => "δ (eV)"

/-- What every panel's horizontal axis says. -/
def xLabel : String := "Component #"

end Channel

/-- The step figure of a series. -/
def StepSeries.drawing (s : StepSeries) (palette : Nat → Colour) (style : Style) : Drawing :=
  let steps := (List.range s.steps).map Binary64.ofNat
  let panel (c : Channel) : Chart :=
    .ofSeries (some c.title) Channel.xLabel c.yLabel
      ((s.channel c).mapIdx fun particle values => ⟨none, palette particle, steps, values⟩)
  ⟨style, Channel.all.map panel⟩

@[simp] theorem StepSeries.style_drawing (s : StepSeries) (palette : Nat → Colour) (style : Style) :
    (s.drawing palette style).style = style := rfl

end Beamline
