/-!
# Cubes — tables with three indices

A step series is a table over steps, particles and channels. It is kept as a function of three
bounded indices rather than as a list with strides: two files that lay the same values out
differently then give the same function, and reading along another axis is applying the function in
another order.

`ofRowMajor` is the only place where a flat index is computed. The other layout is the same flat
list seen with its axes in reverse.
-/

set_option autoImplicit false

namespace Beamline

/-- A value for each index triple below three lengths. -/
structure Cube (α : Type) where
  first : Nat
  second : Nat
  third : Nat
  entry : Fin first → Fin second → Fin third → α

namespace Cube

variable {α : Type}

/-- A pair of bounded indices, counted row by row, stays below the product of the bounds. -/
theorem pair_lt {i a j b : Nat} (hi : i < a) (hj : j < b) : i * b + j < a * b :=
  calc
    i * b + j < i * b + b := Nat.add_lt_add_left hj _
    _ = (i + 1) * b := (Nat.succ_mul i b).symm
    _ ≤ a * b := Nat.mul_le_mul_right b hi

/-- The cube whose values are listed with the last index running fastest. -/
def ofRowMajor (a b c : Nat) (values : Array α) (h : values.size = a * b * c) : Cube α where
  first := a
  second := b
  third := c
  entry i j k :=
    have inside : (i.val * b + j.val) * c + k.val < values.size :=
      h ▸ pair_lt (pair_lt i.isLt j.isLt) k.isLt
    values[(i.val * b + j.val) * c + k.val]

/-- The same values with the axes in reverse. -/
def reverse (t : Cube α) : Cube α where
  first := t.third
  second := t.second
  third := t.first
  entry i j k := t.entry k j i

/-- The cube whose values are listed with the first index running fastest. -/
def ofColumnMajor (a b c : Nat) (values : Array α) (h : values.size = c * b * a) : Cube α :=
  (ofRowMajor c b a values h).reverse

end Cube

end Beamline
