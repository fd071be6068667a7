import Beamline.Arithmetic
import Beamline.Failure

/-!
# Histograms — equal bins of unit area

The finite values are binned over their own range; the last bin is closed on the right, so that the
maximum is counted. A constant input is binned over one unit around its value, an input with nothing
finite over the unit interval.

The bins come first (`Binning`) and the counts second. Edges and indices are two formulas over the
same three numbers, and whether they agree is a question about the arithmetic they are read in.
-/

set_option autoImplicit false

namespace Beamline

structure Binning (α : Type) where
  low : α
  width : α
  bins : Nat

/-- Edges of the bins, one more than there are bins, and the density in each bin. -/
structure Histogram (α : Type) where
  edges : List α
  density : List α

section

variable {α : Type} [Quantity α]

/-- The least and greatest of a list, unless it is empty. Of equal values the last one counts, which
shows where zeros have signs. -/
def extremes? : List α → Option (α × α)
  | [] => none
  | v :: vs =>
    some (vs.foldl
      (fun (low, high) v =>
        (if Quantity.below low v then low else v, if Quantity.below v high then high else v))
      (v, v))

/-- The range to bin a list of finite values over. -/
def binningRange (finite : List α) : α × α :=
  match extremes? finite with
  | none => (((0 : Nat) : α), ((1 : Nat) : α))
  | some (low, high) =>
    if Quantity.below low high then (low, high) else (low - 0.5, high + 0.5)

namespace Binning

def ofValues (bins : Nat) (finite : List α) : Binning α :=
  let (low, high) := binningRange finite
  { low := low, width := (high - low) / ((bins : Nat) : α), bins := bins }

/-- The edge before bin `i`. -/
def edge (b : Binning α) (i : Nat) : α := b.low + b.width * ((i : Nat) : α)

def edges (b : Binning α) : List α := (List.range (b.bins + 1)).map b.edge

def index (b : Binning α) (v : α) : Nat :=
  Nat.min (Quantity.wholePart ((v - b.low) / b.width)) (b.bins - 1)

/-- How many of the values fall into each bin. -/
def counts (b : Binning α) (values : List α) : List Nat :=
  let indices := values.map b.index
  (List.range b.bins).map fun i => indices.count i

end Binning

def finiteValues (values : List α) : List α := values.filter Quantity.isFinite

/-- The density histogram of a list, if there is at least one bin. -/
def Histogram.density? (values : List α) (bins : Nat) : Option (Histogram α) :=
  if bins = 0 then none
  else
    let finite := finiteValues values
    let b := Binning.ofValues bins finite
    let counts := b.counts finite
    let area := ((counts.foldr (· + ·) 0 : Nat) : α) * b.width
    some { edges := b.edges, density := counts.map fun c => ((c : Nat) : α) / area }

/-- The density histogram of a list; without bins there is none. -/
def Histogram.ofValues (values : List α) (bins : Nat) : Outcome (Histogram α) :=
  match Histogram.density? values bins with
  | some h => .ok h
  | none => Outcome.fail .noBins

def Histogram.bins (h : Histogram α) : Nat := h.density.length

end

end Beamline
