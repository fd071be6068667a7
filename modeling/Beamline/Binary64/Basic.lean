import Beamline.Binary64.Magnitude

/-!
# Binary64 — values, arithmetic and order

The arithmetic of the analysis is IEEE binary64, and its rounding is visible in every answer, so it
is defined here rather than borrowed: a value is NaN, an infinity, or a sign with a magnitude, and
each operation is *the exact result, rounded once* (`Binary64.round`). There is one NaN: no answer
shows a payload.

Two views carry the rules. `signed` turns a finite value into a whole number of units, which is what
sums and comparisons are taken of. `position?` extends it to the infinities, so that `lt` and
numerical equality are the order and equality of integers, with both zeros in one place and NaN in
none.
-/

set_option autoImplicit false

namespace Beamline

/-! ## Signs -/

/-- The sign of a value; zeros and infinities have one too. -/
inductive Sign where
  | plus
  | minus
deriving DecidableEq, Inhabited

namespace Sign

def flip : Sign → Sign
  | plus => minus
  | minus => plus

def times : Sign → Sign → Sign
  | plus, t => t
  | minus, t => t.flip

/-- A count of units with its sign. -/
def apply : Sign → Nat → Int
  | plus, n => (n : Int)
  | minus, n => -(n : Int)

/-- The sign of an integer; zero counts as positive. -/
def ofInt (i : Int) : Sign := if i < 0 then minus else plus

end Sign

/-! ## Values -/

inductive Binary64 where
  | nan
  | infinite (sign : Sign)
  | finite (sign : Sign) (magnitude : Magnitude)
deriving DecidableEq, Inhabited

namespace Binary64

/-- The exact value `num / den` units, with the sign given, rounded to nearest, ties to even; what
rounds to `2 ^ 1024` or beyond is infinite. The sign decides between the two zeros. -/
def round (sign : Sign) (num den : Nat) : Binary64 :=
  if h : roundUnits num den < overflowUnits then
    finite sign ⟨roundUnits num den, spacing_dvd_roundUnits num den, h⟩
  else
    infinite sign

def zero (sign : Sign) : Binary64 := finite sign Magnitude.zero

def isNaN : Binary64 → Bool
  | nan => true
  | _ => false

def isFinite : Binary64 → Bool
  | finite _ _ => true
  | _ => false

/-- A finite value as a signed number of units. -/
def signed : Binary64 → Option Int
  | finite s m => some (s.apply m.units)
  | _ => none

/-! ## Whole numbers -/

def ofNat (n : Nat) : Binary64 := round .plus (n * unitsPerOne) 1

/-- The value nearest to an integer; zero is positive. -/
def ofInt (i : Int) : Binary64 := round (Sign.ofInt i) (i.natAbs * unitsPerOne) 1

instance : NatCast Binary64 := ⟨ofNat⟩

/-! ## Arithmetic -/

def neg : Binary64 → Binary64
  | nan => nan
  | infinite s => infinite s.flip
  | finite s m => finite s.flip m

def abs : Binary64 → Binary64
  | nan => nan
  | infinite _ => infinite .plus
  | finite _ m => finite .plus m

/-- The sum of two finite values. An exact zero is negative only when both terms are. -/
def addFinite (s : Sign) (m : Magnitude) (t : Sign) (n : Magnitude) : Binary64 :=
  let total := s.apply m.units + t.apply n.units
  if total = 0 then zero (if s = t then s else .plus)
  else round (Sign.ofInt total) total.natAbs 1

def add : Binary64 → Binary64 → Binary64
  | nan, _ => nan
  | _, nan => nan
  | infinite s, infinite t => if s = t then infinite s else nan
  | infinite s, finite _ _ => infinite s
  | finite _ _, infinite t => infinite t
  | finite s m, finite t n => addFinite s m t n

def sub (a b : Binary64) : Binary64 := add a b.neg

def mul : Binary64 → Binary64 → Binary64
  | nan, _ => nan
  | _, nan => nan
  | infinite s, infinite t => infinite (s.times t)
  | infinite s, finite t n => if n.units = 0 then nan else infinite (s.times t)
  | finite s m, infinite t => if m.units = 0 then nan else infinite (s.times t)
  | finite s m, finite t n => round (s.times t) (m.units * n.units) unitsPerOne

def div : Binary64 → Binary64 → Binary64
  | nan, _ => nan
  | _, nan => nan
  | infinite _, infinite _ => nan
  | infinite s, finite t _ => infinite (s.times t)
  | finite s _, infinite t => zero (s.times t)
  | finite s m, finite t n =>
    if n.units = 0 then
      if m.units = 0 then nan else infinite (s.times t)
    else
      round (s.times t) (m.units * unitsPerOne) n.units

instance : Neg Binary64 := ⟨neg⟩
instance : Add Binary64 := ⟨add⟩
instance : Sub Binary64 := ⟨sub⟩
instance : Mul Binary64 := ⟨mul⟩
instance : Div Binary64 := ⟨div⟩

/-! ## Order -/

/-- Where a value stands on the line of units; infinities stand where the first unrepresentable
magnitude would, NaN nowhere. -/
def position? : Binary64 → Option Int
  | nan => none
  | infinite s => some (s.apply overflowUnits)
  | finite s m => some (s.apply m.units)

/-- Numerical `<`; false whenever a NaN takes part. -/
def lt (a b : Binary64) : Bool :=
  match a.position?, b.position? with
  | some i, some j => decide (i < j)
  | _, _ => false

/-- Numerical `≤`; false whenever a NaN takes part. -/
def le (a b : Binary64) : Bool :=
  match a.position?, b.position? with
  | some i, some j => decide (i ≤ j)
  | _, _ => false

/-- Numerical equality: zeros of either sign are equal, a NaN equals nothing. -/
def numEq (a b : Binary64) : Bool :=
  match a.position?, b.position? with
  | some i, some j => decide (i = j)
  | _, _ => false

/-- The larger of two values, the other one if one is NaN, the second of two equal ones. -/
def max (a b : Binary64) : Binary64 := if b.isNaN || b.lt a then a else b

/-! ## To whole numbers -/

/-- The nearest whole number, halves going away from zero. -/
def roundHalfAway : Binary64 → Binary64
  | finite s m =>
    round s ((2 * m.units + unitsPerOne) / (2 * unitsPerOne) * unitsPerOne) 1
  | x => x

/-- The whole part as a count that saturates at zero and at `limit`; NaN counts nothing. -/
def truncate (limit : Nat) : Binary64 → Nat
  | finite .plus m => Nat.min (m.units / unitsPerOne) limit
  | infinite .plus => limit
  | _ => 0

end Binary64

end Beamline
