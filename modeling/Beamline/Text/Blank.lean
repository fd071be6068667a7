/-!
# Blank characters — what trimming takes away

Two notions of blank meet in a table. Around the bytes of a cell the ASCII blanks are dropped before
the cell is even known to be text; around its characters every Unicode white space is. The second
contains the first, which is why trimming twice never trims differently from trimming once.
-/

set_option autoImplicit false

namespace Beamline
namespace Text

/-- Blank as a byte: space, tab, line feed, form feed, carriage return. -/
def isBlankByte (b : UInt8) : Bool :=
  b == 0x20 || b == 0x09 || b == 0x0A || b == 0x0C || b == 0x0D

/-- Blank as a character: the Unicode property White_Space. -/
def isBlank (c : Char) : Bool :=
  let n := c.toNat
  (0x09 ≤ n && n ≤ 0x0D) || n == 0x20 || n == 0x85 || n == 0xA0 || n == 0x1680 ||
    (0x2000 ≤ n && n ≤ 0x200A) || n == 0x2028 || n == 0x2029 || n == 0x202F || n == 0x205F ||
    n == 0x3000

/-- A list without the members of a class at its two ends. -/
def trimWith {α : Type} (blank : α → Bool) (xs : List α) : List α :=
  (xs.dropWhile blank).reverse.dropWhile blank |>.reverse

def trimBytes (bytes : List UInt8) : List UInt8 := trimWith isBlankByte bytes

def trim (cs : List Char) : List Char := trimWith isBlank cs

end Text
end Beamline
