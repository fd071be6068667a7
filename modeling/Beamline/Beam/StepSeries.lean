import Beamline.Beam.Cube
import Beamline.Failure
import Beamline.Npy.Array

/-!
# Step series — what a simulation recorded step by step

A step series is a cube of values over steps, particles and channels with at least the two channels
that are plotted; the bound is part of the type, so looking a channel up needs no check.

An array file is read by trying one element type after another. A file that holds another type is
not yet a failure, any other fault is: the types' descriptors do not overlap, so at most one of them
gets past the header, and the order they are tried in is of no consequence.
-/

set_option autoImplicit false

namespace Beamline

/-- A quantity stored along the last axis of a step series. -/
inductive Channel where
  /-- Longitudinal position, m. -/
  | position
  /-- Energy deviation, eV. -/
  | energyDeviation
deriving DecidableEq, Repr

namespace Channel

def all : List Channel := [position, energyDeviation]

/-- The place of a channel along the last axis. -/
def index : Channel → Nat
  | position => 0
  | energyDeviation => 1

theorem index_lt (c : Channel) : c.index < all.length := by cases c <;> decide

end Channel

/-- Values over steps, particles and channels. -/
structure StepSeries where
  cube : Cube Binary64
  enough : Channel.all.length ≤ cube.third

namespace StepSeries

def steps (s : StepSeries) : Nat := s.cube.first

def particles (s : StepSeries) : Nat := s.cube.second

/-! ## Building -/

/-- The series over a cube; it must have every channel. -/
def ofCube (cube : Cube Binary64) : Outcome StepSeries :=
  if h : Channel.all.length ≤ cube.third then .ok ⟨cube, h⟩
  else Outcome.fail (.tooFewChannels cube.third)

/-- The series over values listed with the channel running fastest and the step slowest. -/
def ofValues (steps particles channels : Nat) (values : List Binary64) : Outcome StepSeries :=
  if h : Shape.addressable [steps, particles, channels] = true ∧
      values.toArray.size = Shape.elements [steps, particles, channels] then
    ofCube (Cube.ofRowMajor steps particles channels values.toArray
      (h.2.trans (Shape.elements_three ..)))
  else
    Outcome.during .shapeSeries (Outcome.fail .shape)

/-! ## Reading array files -/

def cubeOf (a : Npy.Contents) : Except Npy.Fault (Cube Binary64) :=
  match h : a.shape with
  | [steps, particles, channels] =>
    if ! Shape.addressable [steps, particles, channels] then .error .lengthOverflow else
    have size : a.values.size = Shape.elements [steps, particles, channels] := h ▸ a.size_eq
    if a.columnMajor then
      .ok (Cube.ofColumnMajor steps particles channels a.values
        (size.trans (Shape.elements_three_reverse ..)))
    else
      .ok (Cube.ofRowMajor steps particles channels a.values
        (size.trans (Shape.elements_three ..)))
  | shape => .error (.otherRank shape.length)

def readCube (e : Npy.Element) (bytes : List UInt8) : Except Npy.Fault (Cube Binary64) := do
  cubeOf (← Npy.readAs e bytes)

/-- The series in a file, by the first of some element types that the file does not turn away. -/
def ofFileTrying (path : String) (bytes : List UInt8) : List Npy.Element → Outcome StepSeries
  | [] => Outcome.fail (.notNumeric path)
  | e :: es =>
    match readCube e bytes with
    | .ok cube => ofCube cube
    | .error .otherElement => ofFileTrying path bytes es
    | .error fault => Outcome.during (.readSeries path) (Outcome.fail (.npy fault))

/-- The series in an array file of any numeric type; the path is for messages. -/
def ofFile (path : String) (bytes : List UInt8) : Outcome StepSeries :=
  ofFileTrying path bytes Npy.Element.all

/-! ## Looking along particles -/

/-- What one channel holds for each particle, step by step. -/
def channel (s : StepSeries) (c : Channel) : List (List Binary64) :=
  List.ofFn fun particle => List.ofFn fun step =>
    s.cube.entry step particle ⟨c.index, Nat.lt_of_lt_of_le c.index_lt s.enough⟩

/-- One particle's values on a line. -/
def line (values : List Binary64) : String :=
  "[" ++ String.intercalate " " (values.map Binary64.text) ++ "]\n"

/-- Every particle on a line of its own, all positions before all energy deviations. -/
def echo (s : StepSeries) : String :=
  String.join ((Channel.all.flatMap s.channel).map line)

end StepSeries

end Beamline
