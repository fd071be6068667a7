import Beamline.Power

/-!
# Shapes — how many values an array holds

A shape is the list of an array's axis lengths. Two facts about it decide whether a list of values
can be an array of that shape: how many elements it has, and whether so many could be addressed at
all. The second is asked of the non-zero lengths alone, because an array that is empty along one
axis still has strides along the others.

A file that declares a shape is asked something else first: whether the bytes it promises could be
held (`fits`). There the lengths are multiplied in order, and an overflow on the way counts even if
a later length is zero.
-/

set_option autoImplicit false

namespace Beamline
namespace Shape

def elements (shape : List Nat) : Nat := shape.foldr (· * ·) 1

/-- The most elements, or bytes, an address space can index. -/
def maxElements : Nat := 2 ^ 63 - 1

/-- Whether a shape can be addressed; lengths of zero do not make up for too long ones. -/
def addressable (shape : List Nat) : Bool := elements (shape.filter (· ≠ 0)) ≤ maxElements

/-- The largest length a machine word holds. -/
def maxWord : Nat := 2 ^ 64 - 1

/-- The number of elements counted axis by axis, as long as a machine word holds the count. -/
def count? (shape : List Nat) : Option Nat :=
  shape.foldlM (fun n length => if n * length ≤ maxWord then some (n * length) else none) 1

/-- Whether the elements of a shape take no more bytes than can be addressed, at `width` each. -/
def fits (width : Nat) (shape : List Nat) : Bool :=
  match count? shape with
  | some n => n * width ≤ maxElements
  | none => false

theorem elements_three (a b c : Nat) : elements [a, b, c] = a * b * c := by
  simp [elements, Nat.mul_assoc]

/-- The same product from the last axis on. -/
theorem elements_three_reverse (a b c : Nat) : elements [a, b, c] = c * b * a := by
  rw [elements_three, Nat.mul_comm (a * b) c, Nat.mul_assoc, Nat.mul_comm b a]

end Shape
end Beamline
