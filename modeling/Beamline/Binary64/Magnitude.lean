import Beamline.Power

/-!
# Magnitudes — the non-negative finite values of binary64

Every finite binary64 value is a whole multiple of `2 ^ (-1074)`, the smallest positive one. So a
magnitude is kept as a natural number of those *units*, and nothing here needs an exponent field, a
hidden bit or a case for subnormal values: the only question about a natural number is whether its
53 leading bits hold all of it.

Rounding is one function of an exact quotient (`roundUnits`). Addition hands it a quotient by one,
multiplication a quotient by `2 ^ 1074`, division and decimal text a proper fraction; none of them
rounds on its own. `spacing_dvd_roundUnits` is what lets the result be a magnitude at all.
-/

set_option autoImplicit false

namespace Beamline

/-! ## Spacing of neighbours -/

/-- The distance, in units, between neighbouring magnitudes from `n` upwards within the binade of
`n`: one unit as long as `n` has at most 53 bits, then doubling with every further bit. -/
def spacing (n : Nat) : Nat := 2 ^ (n.log2 + 1 - 53)

/-- The value one is this power of two in units. -/
def oneBits : Nat := 1074

/-- The least power of two that no finite value reaches, `2 ^ 1024`, is this power of two in
units. -/
def overflowBits : Nat := 2098

def unitsPerOne : Nat := 2 ^ oneBits

/-- The least number of units that no finite value reaches. -/
def overflowUnits : Nat := 2 ^ overflowBits

theorem spacing_pos (n : Nat) : 0 < spacing n := Nat.two_pow_pos _

theorem unitsPerOne_pos : 0 < unitsPerOne := Nat.two_pow_pos oneBits

theorem overflowUnits_pos : 0 < overflowUnits := Nat.two_pow_pos overflowBits

/-- Whatever has at most 53 bits before its trailing zeros is spaced; `2 ^ 53` itself is let in,
because rounding up can reach it. -/
theorem spacing_dvd_mul_two_pow {k e : Nat} (hk : k ≤ 2 ^ 53) :
    spacing (k * 2 ^ e) ∣ k * 2 ^ e := by
  unfold spacing
  by_cases h0 : k = 0
  · subst h0
    simp
  · by_cases hlt : k < 2 ^ 53
    · apply Nat.dvd_trans (Nat.pow_dvd_pow 2 _) (Nat.dvd_mul_left (2 ^ e) k)
      have hne : k * 2 ^ e ≠ 0 := Nat.mul_ne_zero h0 (Nat.ne_of_gt (Nat.two_pow_pos e))
      have hb : k * 2 ^ e < 2 ^ (53 + e) := by
        rw [Nat.pow_add]
        exact Nat.mul_lt_mul_of_pos_right hlt (Nat.two_pow_pos e)
      have := (Nat.log2_lt hne).2 hb
      omega
    · have hk' : k = 2 ^ 53 := by omega
      subst hk'
      rw [← Nat.pow_add, Nat.log2_two_pow]
      exact Nat.pow_dvd_pow 2 (by omega)

/-! ## Rounding a quotient -/

/-- The whole number nearest to `num / den`; halfway between two, the even one. -/
def nearestEven (num den : Nat) : Nat :=
  let q := num / den
  let r := num % den
  if 2 * r < den then q
  else if den < 2 * r then q + 1
  else q + q % 2

theorem nearestEven_le (num den : Nat) : nearestEven num den ≤ num / den + 1 := by
  unfold nearestEven
  dsimp only
  split
  · omega
  · split <;> omega

theorem le_nearestEven (num den : Nat) : num / den ≤ nearestEven num den := by
  unfold nearestEven
  dsimp only
  split
  · omega
  · split <;> omega

/-- The number of units nearest to `num / den` among those with 53 significant bits, halves going to
the even significand. The floor of the quotient already lies in its binade, so its spacing is the
spacing to round on. -/
def roundUnits (num den : Nat) : Nat :=
  let s := spacing (num / den)
  nearestEven num (den * s) * s

/-- The floor of a quotient holds fewer than `2 ^ 53` steps of its own spacing. -/
theorem div_spacing_lt (n : Nat) : n / spacing n < 2 ^ 53 := by
  unfold spacing
  rw [Nat.div_lt_iff_lt_mul (Nat.two_pow_pos _), ← Nat.pow_add]
  refine Nat.lt_of_lt_of_le Nat.lt_log2_self (Nat.pow_le_pow_right (by decide) ?_)
  omega

theorem nearestEven_spacing_le (num den : Nat) :
    nearestEven num (den * spacing (num / den)) ≤ 2 ^ 53 := by
  have h := nearestEven_le num (den * spacing (num / den))
  rw [← Nat.div_div_eq_div_mul] at h
  have := div_spacing_lt (num / den)
  omega

theorem spacing_dvd_roundUnits (num den : Nat) :
    spacing (roundUnits num den) ∣ roundUnits num den := by
  unfold roundUnits
  dsimp only
  have h :=
    spacing_dvd_mul_two_pow (e := (num / den).log2 + 1 - 53) (nearestEven_spacing_le num den)
  exact h

/-! ## Magnitudes -/

/-- A non-negative finite value, as a number of units that 53 significant bits can hold. -/
structure Magnitude where
  units : Nat
  spaced : spacing units ∣ units
  bounded : units < overflowUnits
deriving DecidableEq

namespace Magnitude

def zero : Magnitude := ⟨0, Nat.dvd_zero _, overflowUnits_pos⟩

instance : Inhabited Magnitude := ⟨zero⟩

theorem ext_units {m n : Magnitude} (h : m.units = n.units) : m = n := by
  cases m
  cases n
  simp only at h
  subst h
  rfl

end Magnitude

end Beamline
