import Beamline.Binary64.Literal

/-!
# Style — from inches to pixels

Figures are described in inches and points and drawn in pixels. Every pixel size comes from one rule
(`Style.pixels`), whatever value it starts from: the nearest whole number, at least one, at most the
largest 32-bit count. So no settings can ask for a figure without extent, and a size that is not a
number at all becomes a single pixel.
-/

set_option autoImplicit false

namespace Beamline

/-- The physical sizes of all figures. The step figure shares font, marker and margin. -/
structure FigureSizes where
  widthIn : Binary64
  heightIn : Binary64
  dpi : Binary64
  fontPt : Binary64
  markerPt : Binary64
  marginIn : Binary64
  stepsWidthIn : Binary64
  stepsHeightIn : Binary64
  stepsDpi : Binary64

/-- The sizes used where the settings say nothing. -/
def FigureSizes.standard : FigureSizes where
  widthIn := 12.0
  heightIn := 7.0
  dpi := 600.0
  fontPt := 22.0
  markerPt := 10.0
  marginIn := 0.1
  stepsWidthIn := 12.8
  stepsHeightIn := 9.6
  stepsDpi := 100.0

structure Style where
  width : Nat
  height : Nat
  font : Nat
  /-- The radius of a point. -/
  marker : Nat
  margin : Nat
deriving DecidableEq, Repr

namespace Style

/-- The largest pixel count. -/
def maxPixels : Nat := 2 ^ 32 - 1

def pointsPerInch : Binary64 := 72.0

def pixels (dpi inches : Binary64) : Nat :=
  ((inches * dpi).roundHalfAway.max 1.0).truncate maxPixels

/-- The geometry of a figure of some width, height and resolution. A marker's size is its diameter,
its radius is drawn. -/
def atResolution (sizes : FigureSizes) (width height dpi : Binary64) : Style where
  width := pixels dpi width
  height := pixels dpi height
  font := pixels dpi (sizes.fontPt / pointsPerInch)
  marker := pixels dpi (0.5 * sizes.markerPt / pointsPerInch)
  margin := pixels dpi sizes.marginIn

def comparison (sizes : FigureSizes) : Style :=
  atResolution sizes sizes.widthIn sizes.heightIn sizes.dpi

def steps (sizes : FigureSizes) : Style :=
  atResolution sizes sizes.stepsWidthIn sizes.stepsHeightIn sizes.stepsDpi

end Style

end Beamline
