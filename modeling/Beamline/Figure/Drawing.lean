import Beamline.Figure.Png
import Beamline.Figure.Scatter
import Beamline.Figure.Style

/-!
# Drawings — what a renderer is handed

Of a figure everything but the pixels is settled here: how large the canvas is, which charts are on
it, and of each chart its labels, its axes and its points in the order they are painted. What makes
a picture of that is a renderer, and a renderer is a parameter of everything that draws.

A renderer may refuse, for want of a font or because the picture would be too large, and then it
says why. It is asked for the whole picture before anything is written, so a drawing that is refused
touches no file; only a picture can be saved, and saving it can fail as any writing can.
-/

set_option autoImplicit false

namespace Beamline

/-- The points of a series, as far as they can be drawn. -/
structure Marks where
  label : Option String
  colour : Colour
  points : List (Binary64 × Binary64)

/-- A pair of axes with everything between them. -/
structure Chart where
  caption : Option String
  xLabel : String
  yLabel : String
  horizontal : AxisRange
  vertical : AxisRange
  /-- What is painted, the last on top. -/
  marks : List Marks

/-- The chart of some series, with one pair of axes around all of them. -/
def Chart.ofSeries (caption : Option String) (xLabel yLabel : String) (series : List Scatter) :
    Chart where
  caption := caption
  xLabel := xLabel
  yLabel := yLabel
  horizontal := horizontalAxis series
  vertical := verticalAxis series
  marks := series.map fun s => ⟨s.label, s.colour, s.points⟩

/-- A figure that is to be drawn: charts of equal height, one below the other, on one canvas. -/
structure Drawing where
  style : Style
  charts : List Chart

/-- What makes pictures. It has nothing to go by but the drawing; the fonts and the like that it
also needs are those of the machine, and no run changes them. -/
structure Renderer where
  /-- The colour that stands for the particle of some number. -/
  palette : Nat → Colour
  /-- The picture of a drawing, as the bytes of a file, or why there is none. -/
  draw : Drawing → Except String (List UInt8)

/-- The renderer that paints nothing: it makes a white picture of the right size. -/
def Renderer.white : Renderer where
  palette _ := ⟨255, 255, 255⟩
  draw d :=
    if Png.Fits d.style.width d.style.height then .ok (Png.blank d.style.width d.style.height)
    else .error "The picture is too large"

end Beamline
