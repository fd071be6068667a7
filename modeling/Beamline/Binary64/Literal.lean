import Beamline.Binary64.Basic
import Beamline.Text.Digit

/-!
# Decimal literals — reading a value from text

A decimal is read exactly and rounded once. The only care taken is for exponents: a text may name a
power of ten with billions of digits, so a decimal that is certainly beyond the largest value, or
certainly below half of the smallest, is settled by counting digits before any power is computed.
-/

set_option autoImplicit false

namespace Beamline
namespace Binary64

/-- The value nearest to `digits * 10 ^ exponent`. -/
def ofDecimal (sign : Sign) (digits : Nat) (exponent : Int) : Binary64 :=
  -- The leading decimal exponent, from the leading binary one; it is off by one at most.
  let leading := (digits.log2 : Int) * 30103 / 100000 + exponent
  if digits = 0 then zero sign
  -- Values end near 1.8e308, and half of the smallest is near 2.5e-324.
  else if 400 < leading then infinite sign
  else if leading < -400 then zero sign
  else
    match exponent with
    | .ofNat e => round sign (digits * 10 ^ e * unitsPerOne) 1
    | .negSucc e => round sign (digits * unitsPerOne) (10 ^ (e + 1))

instance : OfScientific Binary64 :=
  ⟨fun digits negative e => ofDecimal .plus digits (if negative then -(e : Int) else (e : Int))⟩

/-! ## The grammar

An optional sign; then `inf`, `infinity` or `nan` in any case, or digits with at most one point and
at least one digit, and optionally an exponent. -/

/-- An optional sign and what follows it. -/
def takeSign : List Char → Sign × List Char
  | '+' :: cs => (.plus, cs)
  | '-' :: cs => (.minus, cs)
  | cs => (.plus, cs)

/-- An exponent part, with at least one digit, up to the end of the text. -/
def exponent? : List Char → Option Int
  | [] => some 0
  | c :: cs =>
    if c = 'e' ∨ c = 'E' then
      let (sign, digits) := takeSign cs
      if digits.isEmpty ∨ ! digits.all (Text.isDigit 10) then none
      else some (sign.apply (Text.numberOf 10 digits))
    else none

/-- An unsigned decimal, up to the end of the text. -/
def unsigned? (sign : Sign) (cs : List Char) : Option Binary64 :=
  let whole := cs.takeWhile (Text.isDigit 10)
  let afterWhole := cs.dropWhile (Text.isDigit 10)
  let (fraction, rest) :=
    match afterWhole with
    | '.' :: more => (more.takeWhile (Text.isDigit 10), more.dropWhile (Text.isDigit 10))
    | _ => ([], afterWhole)
  if whole.isEmpty ∧ fraction.isEmpty then none
  else
    (exponent? rest).map fun e =>
      ofDecimal sign (Text.numberOf 10 (whole ++ fraction)) (e - fraction.length)

/-- The value a text stands for, if it is a literal. -/
def parse? (cs : List Char) : Option Binary64 :=
  let (sign, body) := takeSign cs
  let word := String.ofList (body.map Char.toLower)
  if word = "nan" then some nan
  else if word = "inf" ∨ word = "infinity" then some (infinite sign)
  else unsigned? sign body

end Binary64
end Beamline
