import Beamline.Beam.Histogram

/-!
# Scatter series — points and the axes around them

A series is two columns, paired by place. What cannot be drawn is dropped as a point, never as a
coordinate: a record with one infinite coordinate leaves no trace in the other column's range
either.
-/

set_option autoImplicit false

namespace Beamline

structure Colour where
  red : UInt8
  green : UInt8
  blue : UInt8
deriving DecidableEq, Repr

namespace Colour

def pureRed : Colour := ⟨255, 0, 0⟩

def pureBlue : Colour := ⟨0, 0, 255⟩

end Colour

/-- Points of one colour, by their coordinates. -/
structure Scatter where
  label : Option String
  colour : Colour
  x : List Binary64
  y : List Binary64

/-- The points with two finite coordinates. -/
def Scatter.points (s : Scatter) : List (Binary64 × Binary64) :=
  (s.x.zip s.y).filter fun (x, y) => x.isFinite && y.isFinite

/-! ## Axes -/

structure AxisRange where
  start : Binary64
  stop : Binary64

/-- The range of the finite values, with room at both ends: a twentieth of the range; for a
constant, a twentieth of its magnitude, or one around zero. Without any values it is one around
zero. -/
def axisRange (values : List Binary64) : AxisRange :=
  match extremes? (finiteValues values) with
  | none => ⟨-1.0, 1.0⟩
  | some (low, high) =>
    let room :=
      if low.numEq high then
        if low.numEq 0.0 then 1.0 else 0.05 * low.abs
      else 0.05 * (high - low)
    ⟨low - room, high + room⟩

/-- The horizontal axis around some series. -/
def horizontalAxis (series : List Scatter) : AxisRange :=
  axisRange (series.flatMap fun s => s.points.map Prod.fst)

/-- The vertical axis around some series. -/
def verticalAxis (series : List Scatter) : AxisRange :=
  axisRange (series.flatMap fun s => s.points.map Prod.snd)

end Beamline
