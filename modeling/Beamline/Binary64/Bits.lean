import Beamline.Binary64.Basic

/-!
# Interchange formats — values as words of bits

Arrays on disk hold values as fixed-width words: binary64 itself, and binary32, every value of which
is a binary64 value too. Both are read by one function (`FloatFormat.decode`), because the layout is
one rule with two parameters; widening from binary32 is then not a conversion but the same reading
with a coarser unit.

Writing exists for binary64 only. The exponent field needs no case for subnormal values: a magnitude
of at most 53 bits is its own field, and every further bit adds one to the exponent, which is
`2 ^ 52` in the word (`Magnitude.field`).
-/

set_option autoImplicit false

namespace Beamline

/-- A binary interchange format: one sign bit, then exponent bits, then fraction bits. -/
structure FloatFormat where
  fractionBits : Nat
  exponentBits : Nat

namespace FloatFormat

def binary32 : FloatFormat := ⟨23, 8⟩

def binary64 : FloatFormat := ⟨52, 11⟩

/-- The exponent field that marks infinities and NaN. -/
def specialExponent (f : FloatFormat) : Nat := 2 ^ f.exponentBits - 1

/-- The smallest positive value of the format is two to minus this. -/
def unitExponent (f : FloatFormat) : Nat := 2 ^ (f.exponentBits - 1) - 1 + f.fractionBits - 1

/-- The magnitude a word without its sign stands for, in the smallest positive value of the
format. -/
def magnitude (f : FloatFormat) (exponent fraction : Nat) : Nat :=
  if exponent = 0 then fraction
  else (fraction + 2 ^ f.fractionBits) * 2 ^ (exponent - 1)

/-- The value of a word. Higher bits than the format has are ignored. -/
def decode (f : FloatFormat) (word : Nat) : Binary64 :=
  let fraction := word % 2 ^ f.fractionBits
  let exponent := word / 2 ^ f.fractionBits % 2 ^ f.exponentBits
  let sign := if word / 2 ^ (f.fractionBits + f.exponentBits) % 2 = 1 then Sign.minus else Sign.plus
  if exponent = f.specialExponent then
    if fraction = 0 then .infinite sign else .nan
  else
    Binary64.round sign (f.magnitude exponent fraction * 2 ^ (oneBits - f.unitExponent)) 1

end FloatFormat

/-- The exponent and fraction fields of a magnitude, as one number. -/
def Magnitude.field (m : Magnitude) : Nat :=
  let e := m.units.log2 + 1 - 53
  e * 2 ^ 52 + m.units / 2 ^ e

namespace Binary64

def signBit : Sign → Nat
  | .plus => 0
  | .minus => 2 ^ 63

/-- The binary64 word of a value; NaN is written as the positive quiet NaN without payload. -/
def toBits : Binary64 → Nat
  | nan => 0x7ff8000000000000
  | infinite s => signBit s + 0x7ff0000000000000
  | finite s m => signBit s + m.field

def ofBits (word : Nat) : Binary64 := FloatFormat.binary64.decode word

end Binary64

end Beamline
