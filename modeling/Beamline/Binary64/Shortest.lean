import Beamline.Binary64.Basic

/-!
# Shortest decimal — the fewest digits that read back

A value is printed with as few decimal digits as still round to it. Among decimal grids of one,
two, three … digits the first one that has a point inside the value's rounding interval is taken;
if both neighbours of the value on that grid are inside, the nearer one is, and of two equally near
the upper one. Everything is compared as natural numbers, in quarters of a unit, so no step of the
search rounds.

The search needs no bound on digits to be justified: the grid of `10 ^ (-1074)` holds every value
exactly, so the walk down to it ends inside the interval.
-/

set_option autoImplicit false

namespace Beamline

/-- The positive decimal `digits * 10 ^ exponent`. -/
structure Decimal where
  digits : Nat
  exponent : Int
deriving DecidableEq, Repr

namespace Decimal

/-- Numerator of `10 ^ e`. -/
def powNum (e : Int) : Nat := 10 ^ e.toNat

/-- Denominator of `10 ^ e`. -/
def powDen (e : Int) : Nat := 10 ^ (-e).toNat

/-- How many decimal digits a natural number is written with. -/
def length (n : Nat) : Nat := (Nat.toDigits 10 n).length

/-- The same decimal without trailing zeros in its digits; at most `fuel` of them are taken. -/
def strip : Nat → Decimal → Decimal
  | 0, d => d
  | fuel + 1, d =>
    if d.digits % 10 = 0 then strip fuel ⟨d.digits / 10, d.exponent + 1⟩ else d

end Decimal

namespace Magnitude

/-! ## The rounding interval -/

/-- Twice the distance, in units, from a magnitude down to its lower neighbour: one binade further
down the spacing is half as wide. -/
def twiceGapBelow (m : Magnitude) : Nat :=
  let s := spacing m.units
  if 1 < s ∧ m.units = 2 ^ m.units.log2 then s else 2 * s

/-- Where the reals that round to `m` start, in quarters of a unit. -/
def lowQuarters (m : Magnitude) : Nat := 4 * m.units - m.twiceGapBelow

/-- Where the reals that round to `m` end, in quarters of a unit. -/
def highQuarters (m : Magnitude) : Nat := 4 * m.units + 2 * spacing m.units

/-- An even significand owns the ends of its interval. -/
def ownsEnds (m : Magnitude) : Bool := m.units / spacing m.units % 2 == 0

/-- Whether the decimal `digits * 10 ^ exponent` rounds to `m`. -/
def readsBack (m : Magnitude) (d : Decimal) : Bool :=
  let point := d.digits * Decimal.powNum d.exponent * (4 * unitsPerOne)
  let low := m.lowQuarters * Decimal.powDen d.exponent
  let high := m.highQuarters * Decimal.powDen d.exponent
  if m.ownsEnds then low ≤ point && point ≤ high else low < point && point < high

/-! ## The search -/

/-- The exponent of the leading decimal digit of a positive magnitude. -/
def leadingExponent (m : Magnitude) : Int :=
  (Decimal.length (m.units * 10 ^ 400 / unitsPerOne) : Int) - 401

/-- The point of the grid `10 ^ exponent` at or next below `m`. -/
def below (m : Magnitude) (exponent : Int) : Nat :=
  m.units * Decimal.powDen exponent / (unitsPerOne * Decimal.powNum exponent)

/-- Whether the upper neighbour on the grid is at least as near as the lower one. -/
def nearerAbove (m : Magnitude) (exponent : Int) : Bool :=
  let grid := unitsPerOne * Decimal.powNum exponent
  grid ≤ 2 * (m.units * Decimal.powDen exponent % grid)

/-- The decimal for `m` on the first grid, from `exponent` downwards, that has one in the rounding
interval; after `fuel` grids the lower neighbour, which is then `m` itself. -/
def search (m : Magnitude) : Nat → Int → Decimal
  | 0, exponent => ⟨m.below exponent, exponent⟩
  | fuel + 1, exponent =>
    let lower : Decimal := ⟨m.below exponent, exponent⟩
    let upper : Decimal := ⟨m.below exponent + 1, exponent⟩
    match m.readsBack lower, m.readsBack upper with
    | true, true => if m.nearerAbove exponent then upper else lower
    | true, false => lower
    | false, true => upper
    | false, false => search m fuel (exponent - 1)

/-- The shortest decimal that rounds to `m`, nearest to it among those of its length, without
trailing zeros. Zero is `0`. -/
def shortest (m : Magnitude) : Decimal :=
  if m.units = 0 then ⟨0, 0⟩
  else
    let e := m.leadingExponent
    Decimal.strip 400 (m.search (e + oneBits).toNat e)

end Magnitude

/-! ## Text -/

namespace Decimal

def digitText (n : Nat) : String := String.ofList (Nat.toDigits 10 n)

/-- Positional notation: never an exponent, a point only before a fraction. -/
def positional (d : Decimal) : String :=
  match d.exponent with
  | .ofNat e =>
    if d.digits = 0 then "0" else digitText d.digits ++ "".pushn '0' e
  | .negSucc e =>
    let places := e + 1
    let shift := 10 ^ places
    let fraction := Nat.toDigits 10 (d.digits % shift)
    digitText (d.digits / shift) ++ "." ++ "".pushn '0' (places - fraction.length)
      ++ String.ofList fraction

/-- Scientific notation: one digit, a point only before further digits, an exponent always. -/
def scientific (d : Decimal) : String :=
  let digits := Nat.toDigits 10 d.digits
  let exponent := d.exponent + (digits.length : Int) - 1
  let mantissa :=
    match digits with
    | [] => ""
    | [c] => String.ofList [c]
    | c :: rest => String.ofList (c :: '.' :: rest)
  mantissa ++ "e" ++ toString exponent

end Decimal

namespace Binary64

/-- A minus sign stands before every negative value, zero included. -/
def signText : Sign → String
  | .plus => ""
  | .minus => "-"

/-- The text of a value, given how a decimal is written. -/
def textWith (write : Decimal → String) : Binary64 → String
  | nan => "NaN"
  | infinite s => signText s ++ "inf"
  | finite s m => signText s ++ write m.shortest

def text (x : Binary64) : String := x.textWith Decimal.positional

def scientificText (x : Binary64) : String := x.textWith Decimal.scientific

end Binary64

end Beamline
