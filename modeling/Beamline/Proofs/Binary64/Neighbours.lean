import Beamline.Binary64.Shortest
import Beamline.Proofs.Binary64.Rounding

/-!
# Neighbours — where a magnitude ends and the next one starts

Rounding goes to the nearest magnitude, so the exact values that round to one of them are an
interval around it, and how far it reaches is a matter of the neighbours. The neighbour above stands
one spacing higher (`add_spacing_le`). The neighbour below stands one spacing *of its own* lower,
which is half as much where the magnitude opens a binade.

`Magnitude.Attracts` is that interval, ends included where the significand is even, and
`Attracts.roundUnits_eq` says that it deserves the name. Of the ends nothing more is needed than
that two neighbours are never both even (`not_even_neighbours`): a value halfway between them is
claimed by one of them only, and rounding goes to that one.
-/

set_option autoImplicit false

namespace Beamline

/-! ## The neighbour above -/

theorem spacing_le_spacing {m n : Nat} (h : 2 ^ m.log2 ≤ n) : spacing m ≤ spacing n :=
  Nat.le_of_dvd (spacing_pos n) (spacing_dvd_spacing h)

/-- Above a magnitude there is nothing for one spacing. The next one is on the grid of this one, or
on a coarser grid, which is part of it. -/
theorem add_spacing_le {r n : Nat} (hr : spacing r ∣ r) (hn : spacing n ∣ n) (h : r < n) :
    r + spacing r ≤ n := by
  have hlow : 2 ^ r.log2 ≤ n := by
    by_cases h0 : r = 0
    · subst h0
      exact h
    · exact (Nat.log2_self_le h0).trans h.le
  have hdvd : spacing r ∣ n - r :=
    (Nat.dvd_sub_iff_left h.le hr).mpr ((spacing_dvd_spacing hlow).trans hn)
  have := Nat.le_of_dvd (Nat.sub_pos_of_lt h) hdvd
  omega

/-- One spacing higher there is a magnitude again, also where the significand runs full and the next
binade begins. -/
theorem spacing_dvd_add_spacing {n : Nat} (hn : spacing n ∣ n) :
    spacing (n + spacing n) ∣ n + spacing n := by
  obtain ⟨k, hk, hlt, -⟩ := exists_significand hn
  have hsum : n + spacing n = (k + 1) * 2 ^ (n.log2 + 1 - 53) := by
    rw [Nat.add_mul, Nat.one_mul]
    exact congrArg (· + spacing n) hk
  rw [hsum]
  exact spacing_dvd_mul_two_pow hlt

/-- Of two neighbours at most one has an even significand. So the value halfway between them is
claimed by one of them at most. -/
theorem not_even_neighbours {n : Nat} (hn : spacing n ∣ n) (heven : Even (n / spacing n)) :
    ¬ Even ((n + spacing n) / spacing (n + spacing n)) := by
  obtain ⟨k, hk, hlt, hbits⟩ := exists_significand hn
  have hdiv : n / spacing n = k := Nat.div_eq_of_eq_mul_left (spacing_pos n) hk
  rw [hdiv] at heven
  have hsum : n + spacing n = (k + 1) * 2 ^ (n.log2 + 1 - 53) := by
    rw [Nat.add_mul, Nat.one_mul]
    exact congrArg (· + spacing n) hk
  -- An even significand is not the last of its binade, so the neighbour is still in it.
  have hlast : k + 1 < 2 ^ 53 := by
    have := Nat.even_iff.mp heven
    omega
  have hspacing := spacing_mul_two_pow hlast (hbits.imp id (by omega))
  rw [hsum, hspacing, Nat.mul_div_cancel _ (Nat.two_pow_pos _), Nat.even_add_one, not_not]
  exact heven

namespace Magnitude

/-! ## The neighbour below -/

/-- Below a magnitude there is nothing for the gap that is said to be there. It is half as wide if
the magnitude opens a binade, and the two cases are proved apart. -/
theorem twiceGapBelow_le (m : Magnitude) {r : Nat} (hr : spacing r ∣ r) (h : r < m.units) :
    m.twiceGapBelow ≤ 2 * (m.units - r) := by
  obtain ⟨n, hn, hbound⟩ := m
  dsimp only at h
  have hnext := add_spacing_le hr hn h
  have hpos := spacing_pos n
  have hlow : 2 ^ n.log2 ≤ n := Nat.log2_self_le (by omega)
  unfold twiceGapBelow
  dsimp only
  split
  next hopens =>
    -- The magnitude opens a binade, and the one below is spaced half as wide.
    obtain ⟨hwide, hpow⟩ := hopens
    obtain ⟨e, he⟩ : ∃ e, n.log2 = e + 53 := by
      refine ⟨n.log2 - 53, ?_⟩
      by_contra hsmall
      unfold spacing at hwide
      rw [show n.log2 + 1 - 53 = 0 by omega] at hwide
      omega
    have hs : spacing n = 2 * 2 ^ e := by
      unfold spacing
      rw [he, show e + 53 + 1 - 53 = e + 1 by omega, Nat.pow_succ, Nat.mul_comm]
    have hn2 : n = 2 * 2 ^ (e + 52) := by
      rw [hpow, he, show e + 53 = (e + 52) + 1 by omega, Nat.pow_succ, Nat.mul_comm]
    by_cases hhalf : r < 2 ^ (e + 52)
    · have : 2 ^ e ≤ 2 ^ (e + 52) := Nat.pow_le_pow_right Nat.two_pos (by omega)
      omega
    · have hsr : spacing (2 ^ (e + 52)) ≤ spacing r :=
        spacing_le_spacing (by rw [Nat.log2_two_pow]; omega)
      have hse : spacing (2 ^ (e + 52)) = 2 ^ e := by
        unfold spacing
        rw [Nat.log2_two_pow]
        congr 1
      omega
  next hinside =>
    by_cases hdvd : spacing n ∣ r
    · have := Nat.le_of_dvd (Nat.sub_pos_of_lt h) (Nat.dvd_sub hn hdvd)
      omega
    · -- Off the grid, so below the binade; and the binade's lower end is on the grid.
      have hr' := (lt_of_not_dvd hr hdvd).2
      by_cases hfirst : n = 2 ^ n.log2
      · have : ¬ 1 < spacing n := fun hwide => hinside ⟨hwide, hfirst⟩
        omega
      · have hstep := Nat.le_of_dvd (by omega) (Nat.dvd_sub hn (spacing_dvd_two_pow_log2 n))
        omega

/-- What stands exactly that gap below is the neighbour, one spacing of its own lower. This is
needed to know that its significand is odd if the magnitude's is even. -/
theorem eq_add_spacing (m : Magnitude) {r : Nat} (hr : spacing r ∣ r) (h : r < m.units)
    (hgap : 2 * (m.units - r) ≤ m.twiceGapBelow) : m.units = r + spacing r := by
  have hnext := add_spacing_le hr m.spaced h
  by_contra hne
  have hpos := spacing_pos r
  have := m.twiceGapBelow_le (spacing_dvd_add_spacing hr) (by omega)
  omega

/-! ## The interval -/

/-- Whether an exact value, in units, lies where it rounds to `m`. The bounds are in quarters of a
unit, as the printer has them: the gap below may be half as wide, and its middle is a quarter
away. -/
def Attracts (m : Magnitude) (q : ℚ) : Prop :=
  if m.ownsEnds then m.lowQuarters ≤ 4 * q ∧ 4 * q ≤ m.highQuarters
  else m.lowQuarters < 4 * q ∧ 4 * q < m.highQuarters

theorem Attracts.le {m : Magnitude} {q : ℚ} (h : m.Attracts q) :
    (m.lowQuarters : ℚ) ≤ 4 * q ∧ 4 * q ≤ m.highQuarters := by
  unfold Attracts at h
  split at h
  · exact h
  · exact ⟨h.1.le, h.2.le⟩

/-- The ends belong to an even significand only. -/
theorem Attracts.isEven {m : Magnitude} {q : ℚ} (h : m.Attracts q)
    (hend : 4 * q = m.lowQuarters ∨ 4 * q = m.highQuarters) : m.IsEven := by
  unfold Attracts at h
  split at h
  next heven => exact Nat.even_iff.mpr (by simpa [ownsEnds] using heven)
  next =>
    rcases hend with hlow | hhigh
    · exact absurd hlow h.1.ne'
    · exact absurd hhigh h.2.ne

theorem spacing_le_units {m : Magnitude} (h : 0 < m.units) : spacing m.units ≤ m.units :=
  Nat.le_of_dvd h m.spaced

theorem twiceGapBelow_le_spacing (m : Magnitude) : m.twiceGapBelow ≤ 2 * spacing m.units := by
  unfold twiceGapBelow
  dsimp only
  split <;> omega

theorem twiceGapBelow_pos (m : Magnitude) : 0 < m.twiceGapBelow := by
  have := spacing_pos m.units
  unfold twiceGapBelow
  dsimp only
  split <;> omega

theorem cast_lowQuarters {m : Magnitude} (h : 0 < m.units) :
    (m.lowQuarters : ℚ) = 4 * m.units - m.twiceGapBelow := by
  have hs := spacing_le_units h
  have hg := m.twiceGapBelow_le_spacing
  unfold lowQuarters
  rw [Nat.cast_sub (by omega)]
  push_cast
  ring

theorem cast_highQuarters (m : Magnitude) :
    (m.highQuarters : ℚ) = 4 * m.units + 2 * spacing m.units := by
  unfold highQuarters
  push_cast
  ring

/-- A magnitude attracts itself. -/
theorem attracts_self {m : Magnitude} (h : 0 < m.units) : m.Attracts m.units := by
  have hgap : (0 : ℚ) < m.twiceGapBelow := by exact_mod_cast m.twiceGapBelow_pos
  have hs : (0 : ℚ) < spacing m.units := by exact_mod_cast spacing_pos m.units
  unfold Attracts
  rw [cast_lowQuarters h, cast_highQuarters]
  split
  · constructor <;> linarith
  · constructor <;> linarith

variable {m : Magnitude} {num den : Nat}

/-- Rounding does not go past a magnitude that attracts the value. It would go to the neighbour
above at least, which is further away; or as far, and then the neighbour is the odd one. -/
theorem Attracts.roundUnits_le (hd : 0 < den) (h : m.Attracts (num / den)) :
    roundUnits num den ≤ m.units := by
  by_contra hlt
  have hspaced := spacing_dvd_roundUnits num den
  have hnext := add_spacing_le m.spaced hspaced (by omega)
  have hnext' : (m.units : ℚ) + spacing m.units ≤ roundUnits num den := by exact_mod_cast hnext
  have hs : (0 : ℚ) < spacing m.units := by exact_mod_cast spacing_pos m.units
  have hhigh := h.le.2
  rw [cast_highQuarters] at hhigh
  have hle : |(roundUnits num den : ℚ) - num / den| ≤ |(m.units : ℚ) - num / den| :=
    abs_roundUnits_sub_le hd m.spaced
  rw [abs_of_nonneg (by linarith : (0 : ℚ) ≤ roundUnits num den - num / den)] at hle
  rcases abs_cases ((m.units : ℚ) - num / den) with ⟨habs, -⟩ | ⟨habs, -⟩
  · rw [habs] at hle
    linarith
  · rw [habs] at hle
    -- Only halfway to the neighbour above is left, and there both would be even.
    have hhalf : (4 : ℚ) * (num / den) = m.highQuarters := by
      rw [cast_highQuarters]
      linarith
    have hunits : roundUnits num den = m.units + spacing m.units := by
      have : (roundUnits num den : ℚ) = m.units + spacing m.units := by linarith
      exact_mod_cast this
    have heven : Even (roundUnits num den / spacing (roundUnits num den)) := by
      refine even_roundUnits_div_spacing (even_nearestEven_of_eq hd m.spaced (by omega) ?_)
      rw [habs, abs_of_nonneg (by linarith)]
      linarith
    rw [hunits] at heven
    exact not_even_neighbours m.spaced (h.isEven (Or.inr hhalf)) heven

/-- Nor does it stop short of it. -/
theorem Attracts.le_roundUnits (hd : 0 < den) (h : m.Attracts (num / den)) :
    m.units ≤ roundUnits num den := by
  by_contra hlt
  have hlt : roundUnits num den < m.units := by omega
  have hspaced := spacing_dvd_roundUnits num den
  have hgap := m.twiceGapBelow_le hspaced hlt
  have hgap' : (m.twiceGapBelow : ℚ) ≤ 2 * (m.units - roundUnits num den) := by
    rw [← Nat.cast_sub hlt.le]
    exact_mod_cast hgap
  have hpos : (0 : ℚ) < m.twiceGapBelow := by exact_mod_cast m.twiceGapBelow_pos
  have hlow := h.le.1
  rw [cast_lowQuarters (by omega)] at hlow
  have hle : |(roundUnits num den : ℚ) - num / den| ≤ |(m.units : ℚ) - num / den| :=
    abs_roundUnits_sub_le hd m.spaced
  rw [abs_of_nonpos (by linarith : (roundUnits num den : ℚ) - num / den ≤ 0)] at hle
  rcases abs_cases ((m.units : ℚ) - num / den) with ⟨habs, -⟩ | ⟨habs, -⟩
  · rw [habs] at hle
    -- Halfway to the neighbour below, which therefore stands exactly the gap away.
    have hhalf : (4 : ℚ) * (num / den) = m.lowQuarters := by
      rw [cast_lowQuarters (by omega)]
      linarith
    have hback : 2 * (m.units - roundUnits num den) ≤ m.twiceGapBelow := by
      have : (2 : ℚ) * (m.units - roundUnits num den) ≤ m.twiceGapBelow := by linarith
      rw [← Nat.cast_sub hlt.le] at this
      exact_mod_cast this
    have hunits := m.eq_add_spacing hspaced hlt hback
    have heven : Even (roundUnits num den / spacing (roundUnits num den)) := by
      refine even_roundUnits_div_spacing (even_nearestEven_of_eq hd m.spaced (by omega) ?_)
      rw [habs, abs_of_nonpos (by linarith)]
      linarith
    have hodd := not_even_neighbours hspaced heven
    rw [← hunits] at hodd
    exact hodd (h.isEven (Or.inl hhalf))
  · rw [habs] at hle
    linarith

/-- **What a magnitude attracts rounds to it.** The printer stops at the first digits in the
interval, and reading them back is rounding. -/
theorem Attracts.roundUnits_eq (hd : 0 < den) (h : m.Attracts (num / den)) :
    roundUnits num den = m.units :=
  Nat.le_antisymm (h.roundUnits_le hd) (h.le_roundUnits hd)

theorem Attracts.round_eq (hd : 0 < den) (h : m.Attracts (num / den)) (sign : Sign) :
    Binary64.round sign num den = Binary64.finite sign m := by
  have hunits := h.roundUnits_eq hd
  unfold Binary64.round
  rw [dif_pos (by rw [hunits]; exact m.bounded)]
  exact congrArg _ (Magnitude.ext_units hunits)

end Magnitude
end Beamline
