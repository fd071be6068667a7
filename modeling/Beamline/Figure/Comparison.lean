import Beamline.Beam.Distribution
import Beamline.Figure.Drawing

/-!
# Comparison — the seven plots of two distributions

Two overlays show both distributions around their own centres; two plots show the final one and two
the initial one in absolute terms; one shows the final momentum against how far each particle has
slipped. Whatever belongs to the final distribution is labelled as first order, and the plots of the
initial distribution alone need no label.
-/

set_option autoImplicit false

namespace Beamline

structure Plot where
  name : String
  xLabel : String
  yLabel : String
  series : List Scatter

/-- A plot has a figure to itself, and no caption. -/
def Plot.drawing (p : Plot) (style : Style) : Drawing :=
  ⟨style, [Chart.ofSeries none p.xLabel p.yLabel p.series]⟩

@[simp] theorem Plot.style_drawing (p : Plot) (style : Style) :
    (p.drawing style).style = style := rfl

namespace Comparison

def timeLabel : String := "t [fs]"

def energyLabel : String := "Energy [GeV]"

def offsetLabel : String := "z [µm]"

def slipLabel : String := "Δz [µm]"

def deviationLabel : String := "δ [%]"

def initialLabel : String := "Initial"

def finalLabel : String := "1st-order"

/-! ## Series -/

/-- A series of the initial distribution in an overlay. -/
def initialSeries (x y : List Binary64) : Scatter := ⟨some initialLabel, .pureBlue, x, y⟩

def finalSeries (x y : List Binary64) : Scatter := ⟨some finalLabel, .pureRed, x, y⟩

/-- The only series of a plot. -/
def soleSeries (x y : List Binary64) : Scatter := ⟨none, .pureRed, x, y⟩

/-! ## Plots -/

/-- The names of the plots, in the order they are written. -/
def names : List String :=
  ["t-p_norm_py", "z-delta_norm_py", "t-p_end_py", "z-delta_end_py", "delz-delta_py",
    "t-p_initial_py", "z-delta_initial_py"]

/-- The plots of two distributions and the slip between them. -/
def plots (initial final : Derived Binary64) (slip : List Binary64) : List Plot :=
  [ ⟨"t-p_norm_py", timeLabel, energyLabel,
      [ initialSeries initial.centeredTimeFs initial.energyGeV,
        finalSeries final.centeredTimeFs final.energyGeV ]⟩,
    ⟨"z-delta_norm_py", offsetLabel, deviationLabel,
      [ initialSeries initial.longitudinalOffsetUm initial.fracMomentumDevPct,
        finalSeries final.longitudinalOffsetUm final.fracMomentumDevPct ]⟩,
    ⟨"t-p_end_py", timeLabel, energyLabel,
      [ finalSeries final.timeFs final.energyGeV ]⟩,
    ⟨"z-delta_end_py", offsetLabel, deviationLabel,
      [ finalSeries final.rawLongitudinalOffsetUm final.fracMomentumDevPct ]⟩,
    ⟨"delz-delta_py", slipLabel, deviationLabel,
      [ finalSeries slip final.fracMomentumDevPct ]⟩,
    ⟨"t-p_initial_py", timeLabel, energyLabel,
      [ soleSeries initial.timeFs initial.energyGeV ]⟩,
    ⟨"z-delta_initial_py", offsetLabel, deviationLabel,
      [ soleSeries initial.rawLongitudinalOffsetUm initial.fracMomentumDevPct ]⟩ ]

theorem plots_names (initial final : Derived Binary64) (slip : List Binary64) :
    (plots initial final slip).map Plot.name = names := rfl

end Comparison

end Beamline
