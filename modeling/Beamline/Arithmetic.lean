import Beamline.Binary64.Literal

/-!
# Arithmetic — one formula, two readings

The analysis is a handful of formulas. What they mean is said best in exact rational numbers; what
the program computes with them is binary64, rounded at every step. Both are wanted and neither is
more the formula than the other, so each formula is written once, over `Arithmetic`, and read twice.

`Quantity` adds what binning needs: an order, a test for the values that can be binned at all, and
the whole part of a non-negative value. For rational numbers every value is finite; for binary64 the
whole part saturates at the largest 64-bit count, and the order is the numerical one, which NaN has
no place in.
-/

set_option autoImplicit false

namespace Beamline

/-- What a formula is written with. -/
class Arithmetic (α : Type) extends
  Add α, Sub α, Mul α, Div α, Neg α, NatCast α, OfScientific α

/-- What binning is written with. -/
class Quantity (α : Type) extends Arithmetic α where
  isFinite : α → Bool
  below : α → α → Bool
  wholePart : α → Nat

instance : Arithmetic Binary64 where

instance : Arithmetic Rat where

/-- The largest count of a machine word. -/
def maxCount : Nat := 2 ^ 64 - 1

instance : Quantity Binary64 where
  isFinite := Binary64.isFinite
  below := Binary64.lt
  wholePart := Binary64.truncate maxCount

instance : Quantity Rat where
  isFinite _ := true
  below a b := decide (a < b)
  wholePart q := q.floor.toNat

section

variable {α : Type} [Arithmetic α]

/-- The sum of a list from left to right. It starts from negative zero, which adds nothing to any
value, not even to a negative zero. -/
def total (values : List α) : α := values.foldl (· + ·) (-((0 : Nat) : α))

/-- The mean of a list; of an empty one, zero divided by zero. -/
def mean (values : List α) : α := total values / ((values.length : Nat) : α)

end

end Beamline
