import Beamline.Power

/-!
# Digits — runs of digits as numbers

Three formats read numbers here: table cells, array headers and settings. They disagree about signs,
underscores and leading zeros, and agree about what a digit is worth and what a run of digits stands
for. What they agree about is below, for every base up to sixteen.
-/

set_option autoImplicit false

namespace Beamline
namespace Text

/-- The value of a hexadecimal digit, in either case. -/
def hexDigit? (c : Char) : Option Nat :=
  if '0' ≤ c ∧ c ≤ '9' then some (c.toNat - '0'.toNat)
  else if 'a' ≤ c ∧ c ≤ 'f' then some (c.toNat - 'a'.toNat + 10)
  else if 'A' ≤ c ∧ c ≤ 'F' then some (c.toNat - 'A'.toNat + 10)
  else none

def digit? (base : Nat) (c : Char) : Option Nat := (hexDigit? c).filter (· < base)

def isDigit (base : Nat) (c : Char) : Bool := (digit? base c).isSome

/-- The number that a run of digits stands for. -/
def numberOf (base : Nat) (cs : List Char) : Nat :=
  cs.foldl (fun n c => base * n + (digit? base c).getD 0) 0

/-- Digits read after a number move it up by their count. -/
theorem foldl_digits (base n : Nat) (ds : List Char) :
    ds.foldl (fun n c => base * n + (digit? base c).getD 0) n
      = base ^ ds.length * n + numberOf base ds := by
  induction ds generalizing n with
  | nil => simp [numberOf]
  | cons d ds ih =>
    rw [numberOf, List.foldl_cons, List.foldl_cons, ih, ih, List.length_cons, Nat.pow_succ]
    grind

theorem numberOf_append (base : Nat) (cs ds : List Char) :
    numberOf base (cs ++ ds) = base ^ ds.length * numberOf base cs + numberOf base ds := by
  rw [numberOf, List.foldl_append, foldl_digits]
  rfl

end Text
end Beamline
