import Beamline.Binary64.Bits
import Beamline.Proofs.Binary64.Rounding

/-!
# Exact values — what a word stands for before it is a binary64 value

A file may hold an integer that binary64 cannot, so "the value in the file" has to be said without
binary64. An `Exact` value is NaN, an infinity, or a sign with a rational size; the sign stays apart
because a float can be a negative zero and a rational number cannot.

`Binary64.IsNearest` says which binary64 value an exact one becomes. It is a relation and not a
function, because only the values that do become one need to be spoken of: whole numbers of 64 bits
never overflow (`isNearest_ofInt`), and nothing is lost where nothing has to be
(`IsNearest.eq_of_exact`).
-/

set_option autoImplicit false

namespace Beamline

/-- A value as it is, whether or not binary64 can hold it. -/
inductive Exact where
  | nan
  | infinite (sign : Sign)
  | finite (sign : Sign) (size : ℚ≥0)

namespace Exact

/-- An integer; zero is positive. -/
def ofInt (i : ℤ) : Exact := finite (Sign.ofInt i) i.natAbs

/-- Whether a value is finite and no larger than a bound. -/
def WithinSize (bound : ℚ≥0) : Exact → Prop
  | finite _ size => size ≤ bound
  | _ => False

end Exact

namespace Binary64

/-- The exact value that a binary64 value is. -/
def exact : Binary64 → Exact
  | nan => .nan
  | infinite s => .infinite s
  | finite s m => .finite s m.toRat

/-- A binary64 value is the rounding of an exact one: the same sign, and the nearest magnitude, ties
to even. NaN and the infinities stay what they are. -/
inductive IsNearest : Binary64 → Exact → Prop
  | nan : IsNearest nan .nan
  | infinite (s : Sign) : IsNearest (infinite s) (.infinite s)
  | finite (s : Sign) {m : Magnitude} {q : ℚ≥0} (h : m.IsNearest q) :
      IsNearest (finite s m) (.finite s q)

theorem isNearest_round (s : Sign) {num den : Nat} (hd : 0 < den)
    (h : roundUnits num den < overflowUnits) :
    (round s num den).IsNearest (.finite s (num / (den * unitsPerOne))) := by
  unfold round
  rw [dif_pos h]
  exact .finite s (Magnitude.isNearest_roundUnits hd h)

theorem isNearest_exact (x : Binary64) : x.IsNearest x.exact := by
  cases x with
  | nan => exact .nan
  | infinite s => exact .infinite s
  | finite s m =>
    have hb : roundUnits m.units 1 < overflowUnits := by
      rw [roundUnits_of_spaced m.spaced]
      exact m.bounded
    have h := isNearest_round s Nat.one_pos hb
    rw [round_units, Nat.cast_one, one_mul] at h
    exact h

/-- **What binary64 holds exactly is loaded exactly**: its rounding is itself. -/
theorem IsNearest.eq_of_exact {x y : Binary64} (h : x.IsNearest y.exact) : x = y := by
  cases y with
  | nan => cases h; rfl
  | infinite t => cases h; rfl
  | finite t n =>
    cases h with
    | finite _ hm =>
      have hzero : n.distance n.toRat = 0 := by
        unfold Magnitude.distance
        rw [sub_self, abs_zero]
      have hle := hm.nearest n
      rw [hzero] at hle
      have heq := sub_eq_zero.mp (abs_nonpos_iff.mp hle)
      rw [Magnitude.toRat_inj.mp (NNRat.coe_injective heq)]

/-! ## Whole numbers -/

theorem two_pow_mul_unitsPerOne (k : Nat) : 2 ^ k * unitsPerOne = 2 ^ (k + oneBits) :=
  (Nat.pow_add 2 k oneBits).symm

/-- Integers of fewer than 1024 bits are no larger than what fits. -/
theorem mul_unitsPerOne_lt {k n : Nat} (hn : n ≤ 2 ^ k) (hk : k < 1024) :
    n * unitsPerOne < overflowUnits := by
  refine (Nat.mul_le_mul_right unitsPerOne hn).trans_lt ?_
  rw [two_pow_mul_unitsPerOne]
  refine Nat.pow_lt_pow_right Nat.one_lt_two ?_
  unfold oneBits overflowBits
  omega

/-- They do not overflow by rounding either, because a power of two is on the grid. -/
theorem roundUnits_nat_lt {k n : Nat} (hn : n ≤ 2 ^ k) (hk : k < 1024) :
    roundUnits (n * unitsPerOne) 1 < overflowUnits := by
  have hgrid : spacing (2 ^ k * unitsPerOne) ∣ 2 ^ k * unitsPerOne := by
    have h := spacing_dvd_mul_two_pow (k := 1) (e := k + oneBits) (by decide)
    rw [Nat.one_mul, ← two_pow_mul_unitsPerOne] at h
    exact h
  refine (roundUnits_le Nat.one_pos hgrid ?_).trans_lt (mul_unitsPerOne_lt (Nat.le_refl _) hk)
  rw [Nat.mul_one]
  exact Nat.mul_le_mul_right unitsPerOne hn

/-- The sign and size of an integer, rounded. -/
theorem isNearest_ofInt {i : ℤ} (hi : i.natAbs < 2 ^ 64) :
    (ofInt i).IsNearest (Exact.ofInt i) := by
  have hu : (unitsPerOne : ℚ≥0) ≠ 0 := by exact_mod_cast unitsPerOne_pos.ne'
  have h :=
    isNearest_round (Sign.ofInt i) Nat.one_pos (roundUnits_nat_lt (k := 64) hi.le (by decide))
  rw [Nat.cast_one, one_mul, Nat.cast_mul, mul_div_cancel_right₀ _ hu] at h
  exact h

theorem ofInt_eq_of_exact_eq {i j : ℤ} (h : Exact.ofInt i = Exact.ofInt j) : ofInt i = ofInt j := by
  unfold Exact.ofInt at h
  obtain ⟨hsign, hsize⟩ := Exact.finite.inj h
  have habs : i.natAbs = j.natAbs := by exact_mod_cast hsize
  unfold ofInt
  rw [hsign, habs]

/-- Every integer of at most 53 bits is a binary64 value. -/
theorem exists_exact_eq_ofInt {i : ℤ} (hi : i.natAbs ≤ 2 ^ 53) :
    ∃ y : Binary64, y.exact = Exact.ofInt i := by
  have hu : (unitsPerOne : ℚ≥0) ≠ 0 := by exact_mod_cast unitsPerOne_pos.ne'
  have hb : i.natAbs * unitsPerOne < overflowUnits := mul_unitsPerOne_lt (k := 53) hi (by decide)
  have hs : spacing (i.natAbs * unitsPerOne) ∣ i.natAbs * unitsPerOne :=
    spacing_dvd_mul_two_pow hi
  have hr : ((i.natAbs * unitsPerOne : Nat) : ℚ≥0) / unitsPerOne = i.natAbs := by
    rw [Nat.cast_mul, mul_div_cancel_right₀ _ hu]
  exact ⟨finite (Sign.ofInt i) ⟨i.natAbs * unitsPerOne, hs, hb⟩, congrArg (Exact.finite _) hr⟩

end Binary64

end Beamline
