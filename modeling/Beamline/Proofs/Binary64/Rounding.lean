import Mathlib.Tactic
import Beamline.Binary64.Basic

/-!
# Rounding — one function, and the one thing it promises

`roundUnits` is how every value of the analysis comes to be, so what it promises is said once and
without its own words: no magnitude lies nearer to the exact value, and of two equally near ones the
even significand is taken (`IsNearest`). The definition is by floors and remainders, the promise is
by distances between rational numbers, and `isNearest_roundUnits` is the bridge.

## Where the argument is

On one grid, rounding a quotient is rounding to a whole number, which `nearestEven` does. But the
grid is chosen by the binade of the exact value, and a competitor may live on a finer one. A finer
grid is only found further down (`lt_of_not_dvd`): such a competitor lies below the whole binade,
the binade's lower end is a point of the coarse grid, and the coarse grid has already been won.
-/

set_option autoImplicit false

namespace Beamline

/-! ## The promise -/

namespace Magnitude

def toRat (m : Magnitude) : ℚ≥0 := m.units / unitsPerOne

/-- Whether the significand, the magnitude counted in its own spacing, is even. -/
def IsEven (m : Magnitude) : Prop := Even (m.units / spacing m.units)

def distance (m : Magnitude) (q : ℚ≥0) : ℚ := |(m.toRat : ℚ) - q|

/-- **Round to nearest, ties to even**: nothing is nearer to the exact value, and whatever else is
as near has left the even significand to this one. -/
structure IsNearest (m : Magnitude) (q : ℚ≥0) : Prop where
  nearest : ∀ n : Magnitude, m.distance q ≤ n.distance q
  even : ∀ n : Magnitude, n.distance q = m.distance q → n ≠ m → m.IsEven

end Magnitude

/-! ## Whole numbers -/

/-- The two ways rounding can go, each with the remainder that sends it there. A tie goes down from
an even floor and up from an odd one, so either way it ends on an even number. -/
theorem nearestEven_cases (num den : Nat) :
    (nearestEven num den = num / den ∧ 2 * (num % den) ≤ den ∧
      (2 * (num % den) = den → Even (nearestEven num den))) ∨
    (nearestEven num den = num / den + 1 ∧ den ≤ 2 * (num % den) ∧
      (2 * (num % den) = den → Even (nearestEven num den))) := by
  unfold nearestEven
  dsimp only
  split
  · exact Or.inl ⟨rfl, by omega, by omega⟩
  · split
    · exact Or.inr ⟨rfl, by omega, by omega⟩
    -- Exactly halfway: the floor's parity decides, and is made even.
    · rcases Nat.mod_two_eq_zero_or_one (num / den) with h | h
      · exact Or.inl ⟨by omega, by omega, fun _ => Nat.even_iff.mpr (by omega)⟩
      · exact Or.inr ⟨by omega, by omega, fun _ => Nat.even_iff.mpr (by omega)⟩

theorem div_eq_floor_add (num : Nat) {den : Nat} (hd : 0 < den) :
    (num : ℚ) / den = (num / den : Nat) + ((num % den : Nat) : ℚ) / den := by
  have hd' : (den : ℚ) ≠ 0 := by positivity
  field_simp
  exact_mod_cast (Nat.div_add_mod num den).symm

/-- Rounding to a whole number misses by at most a half. -/
theorem abs_nearestEven_sub_le (num : Nat) {den : Nat} (hd : 0 < den) :
    |(nearestEven num den : ℚ) - num / den| ≤ 1 / 2 := by
  have hd' : (0 : ℚ) < den := by positivity
  have hlt : ((num % den : Nat) : ℚ) / den < 1 := by
    rw [div_lt_one hd']
    exact_mod_cast Nat.mod_lt num hd
  have hnn : 0 ≤ ((num % den : Nat) : ℚ) / den := by positivity
  rw [div_eq_floor_add num hd]
  rcases nearestEven_cases num den with ⟨hk, hr, -⟩ | ⟨hk, hr, -⟩
  · have hhalf : ((num % den : Nat) : ℚ) / den ≤ 1 / 2 := by
      rw [div_le_iff₀ hd']
      have : 2 * ((num % den : Nat) : ℚ) ≤ den := by exact_mod_cast hr
      linarith
    rw [hk, abs_le]
    constructor <;> linarith
  · have hhalf : 1 / 2 ≤ ((num % den : Nat) : ℚ) / den := by
      rw [le_div_iff₀ hd']
      have : (den : ℚ) ≤ 2 * ((num % den : Nat) : ℚ) := by exact_mod_cast hr
      linarith
    rw [hk, abs_le]
    push_cast
    constructor <;> linarith

/-- When it misses by exactly a half, it has gone to an even number. -/
theorem even_nearestEven (num : Nat) {den : Nat} (hd : 0 < den)
    (h : |(nearestEven num den : ℚ) - num / den| = 1 / 2) : Even (nearestEven num den) := by
  have hd' : (den : ℚ) ≠ 0 := by positivity
  have hnn : 0 ≤ ((num % den : Nat) : ℚ) / den := by positivity
  rw [div_eq_floor_add num hd] at h
  have tie : ((num % den : Nat) : ℚ) / den = 1 / 2 → 2 * (num % den) = den := by
    intro hr
    field_simp at hr
    have : 2 * ((num % den : Nat) : ℚ) = den := by linarith
    exact_mod_cast this
  rcases nearestEven_cases num den with ⟨hk, -, heven⟩ | ⟨hk, -, heven⟩
  · refine heven (tie ?_)
    rw [hk, sub_add_cancel_left, abs_neg, abs_of_nonneg hnn] at h
    exact h
  · refine heven (tie ?_)
    have hlt : ((num % den : Nat) : ℚ) / den ≤ 1 := by
      rw [div_le_one (by positivity)]
      exact_mod_cast (Nat.mod_lt num hd).le
    rw [hk, abs_of_nonneg (by push_cast; linarith)] at h
    push_cast at h
    linarith

/-- No whole number is nearer, and one that is as near makes a tie. -/
theorem abs_nearestEven_sub_le_of_ne (num : Nat) {den : Nat} (hd : 0 < den) {j : Nat}
    (hj : j ≠ nearestEven num den) : 1 / 2 ≤ |(j : ℚ) - num / den| := by
  have hk := abs_nearestEven_sub_le num hd
  -- Two whole numbers are one apart, and the rounding uses up at most half of that.
  have hone : (1 : ℚ) ≤ |(j : ℚ) - nearestEven num den| := by
    have : (1 : ℤ) ≤ |(j : ℤ) - nearestEven num den| := Int.one_le_abs (by omega)
    exact_mod_cast this
  have htri : |(j : ℚ) - nearestEven num den| ≤
      |(j : ℚ) - num / den| + |(nearestEven num den : ℚ) - num / den| := by
    rw [abs_sub_comm (nearestEven num den : ℚ)]
    exact abs_sub_le _ _ _
  linarith

/-! ## Grids -/

theorem spacing_dvd_spacing {m n : Nat} (h : 2 ^ m.log2 ≤ n) :
    spacing m ∣ spacing n := by
  have hn : n ≠ 0 := by have := Nat.two_pow_pos m.log2; omega
  have := (Nat.le_log2 hn).mpr h
  exact Nat.pow_dvd_pow 2 (by omega)

/-- A point that a coarse grid misses lies below the whole binade of that grid. -/
theorem lt_of_not_dvd {m n : Nat} (hn : spacing n ∣ n) (h : ¬ spacing m ∣ n) :
    m ≠ 0 ∧ n < 2 ^ m.log2 := by
  have hm : m ≠ 0 := by
    rintro rfl
    exact h (by simp [spacing])
  refine ⟨hm, ?_⟩
  by_contra hle
  exact h ((spacing_dvd_spacing (by omega)).trans hn)

/-- The lower end of a binade is on its grid. -/
theorem spacing_dvd_two_pow_log2 (m : Nat) : spacing m ∣ 2 ^ m.log2 :=
  Nat.pow_dvd_pow 2 (by omega)

section

variable {num den : Nat}

/-- A point of the grid, at its distance from the quotient in steps of the grid. -/
theorem grid_sub_eq (hd : 0 < den) {s : Nat} (hs : 0 < s) (j : Nat) :
    |((j * s : Nat) : ℚ) - num / den| = |(j : ℚ) - num / (den * s : Nat)| * s := by
  have hd' : (den : ℚ) ≠ 0 := by positivity
  have hs' : (0 : ℚ) < s := by positivity
  calc
    |((j * s : Nat) : ℚ) - num / den| = |((j : ℚ) - num / (den * s : Nat)) * s| := by
      congr 1
      push_cast
      field_simp
    _ = |(j : ℚ) - num / (den * s : Nat)| * s := by rw [abs_mul, abs_of_pos hs']

theorem abs_roundUnits_sub_le_half (hd : 0 < den) :
    |(roundUnits num den : ℚ) - num / den| ≤ spacing (num / den) / 2 := by
  have hs := spacing_pos (num / den)
  have hk := abs_nearestEven_sub_le num (Nat.mul_pos hd hs)
  have hs' : (0 : ℚ) < spacing (num / den) := by positivity
  unfold roundUnits
  dsimp only
  rw [grid_sub_eq hd hs]
  nlinarith

/-- The grid of the quotient's own binade holds nothing nearer than its rounding. -/
theorem half_le_abs_sub_of_dvd (hd : 0 < den) {n : Nat} (hn : spacing (num / den) ∣ n)
    (hne : n ≠ roundUnits num den) :
    (spacing (num / den) : ℚ) / 2 ≤ |(n : ℚ) - num / den| := by
  have hs := spacing_pos (num / den)
  have hs' : (0 : ℚ) < spacing (num / den) := by positivity
  obtain ⟨j, rfl⟩ := hn
  rw [Nat.mul_comm] at hne ⊢
  have hj : j ≠ nearestEven num (den * spacing (num / den)) := fun h => hne (by rw [h]; rfl)
  have := abs_nearestEven_sub_le_of_ne num (Nat.mul_pos hd hs) hj
  rw [grid_sub_eq hd hs]
  nlinarith

/-- Finer grids hold nothing nearer either, and nothing as near: their points are below the binade,
whose lower end is on the grid that has been searched. -/
theorem abs_roundUnits_sub_lt_of_not_dvd (hd : 0 < den) {n : Nat} (hn : spacing n ∣ n)
    (h : ¬ spacing (num / den) ∣ n) :
    |(roundUnits num den : ℚ) - num / den| < |(n : ℚ) - num / den| := by
  obtain ⟨hm, hlt⟩ := lt_of_not_dvd hn h
  have hd' : (0 : ℚ) < den := by positivity
  have hlow : ((2 ^ (num / den).log2 : Nat) : ℚ) ≤ num / den := by
    rw [le_div_iff₀ hd']
    have := Nat.mul_le_mul_right den (Nat.log2_self_le hm)
    have := this.trans (Nat.div_mul_le_self num den)
    exact_mod_cast this
  have hlt' : (n : ℚ) < (2 ^ (num / den).log2 : Nat) := by exact_mod_cast hlt
  -- The binade's lower end stands between `n` and the quotient, and the rounding is no worse
  -- than it.
  have hend : |(roundUnits num den : ℚ) - num / den| ≤
      |((2 ^ (num / den).log2 : Nat) : ℚ) - num / den| := by
    by_cases heq : 2 ^ (num / den).log2 = roundUnits num den
    · rw [heq]
    · exact (abs_roundUnits_sub_le_half hd).trans
        (half_le_abs_sub_of_dvd hd (spacing_dvd_two_pow_log2 _) heq)
  rw [abs_of_nonpos (by linarith : ((2 ^ (num / den).log2 : Nat) : ℚ) - num / den ≤ 0)] at hend
  rw [abs_of_nonpos (by linarith : (n : ℚ) - num / den ≤ 0)]
  linarith

theorem abs_roundUnits_sub_le (hd : 0 < den) {n : Nat} (hn : spacing n ∣ n) :
    |(roundUnits num den : ℚ) - num / den| ≤ |(n : ℚ) - num / den| := by
  by_cases h : spacing (num / den) ∣ n
  · by_cases hne : n = roundUnits num den
    · rw [hne]
    · exact (abs_roundUnits_sub_le_half hd).trans (half_le_abs_sub_of_dvd hd h hne)
  · exact (abs_roundUnits_sub_lt_of_not_dvd hd hn h).le

/-- Rounding up does not pass a magnitude. -/
theorem roundUnits_le (hd : 0 < den) {n : Nat} (hn : spacing n ∣ n) (h : num ≤ n * den) :
    roundUnits num den ≤ n := by
  have hd' : (0 : ℚ) < den := by positivity
  have hq : (num : ℚ) / den ≤ n := by
    rw [div_le_iff₀ hd']
    exact_mod_cast h
  by_contra hlt
  have hlt' : (n : ℚ) < roundUnits num den := by exact_mod_cast Nat.lt_of_not_le hlt
  have hle : |(roundUnits num den : ℚ) - num / den| ≤ |(n : ℚ) - num / den| :=
    abs_roundUnits_sub_le hd hn
  rw [abs_of_nonneg (by linarith), abs_of_nonneg (by linarith)] at hle
  linarith

/-- A tie on the grid is a tie between whole numbers, and the even one was taken. -/
theorem even_nearestEven_of_eq (hd : 0 < den) {n : Nat} (hn : spacing n ∣ n)
    (hne : n ≠ roundUnits num den)
    (h : |(n : ℚ) - num / den| = |(roundUnits num den : ℚ) - num / den|) :
    Even (nearestEven num (den * spacing (num / den))) := by
  have hs := spacing_pos (num / den)
  have hs' : (0 : ℚ) < spacing (num / den) := by positivity
  -- Off the grid nothing is as near, so the tie is between two points of the grid.
  have hon : spacing (num / den) ∣ n := by
    by_contra hoff
    have := abs_roundUnits_sub_lt_of_not_dvd hd hn hoff
    linarith
  have hup := half_le_abs_sub_of_dvd hd hon hne
  have hlow : |(roundUnits num den : ℚ) - num / den| ≤ spacing (num / den) / 2 :=
    abs_roundUnits_sub_le_half hd
  have hhalf : |(roundUnits num den : ℚ) - num / den| = spacing (num / den) / 2 := by linarith
  unfold roundUnits at hhalf
  dsimp only at hhalf
  rw [grid_sub_eq hd hs] at hhalf
  exact even_nearestEven num (Nat.mul_pos hd hs) (by nlinarith)

end

/-! ## The significand -/

/-- A significand with all its bits, or any significand on the finest grid, is counted in the
spacing of its own magnitude. -/
theorem spacing_mul_two_pow {k e : Nat} (hk : k < 2 ^ 53) (he : e = 0 ∨ 2 ^ 52 ≤ k) :
    spacing (k * 2 ^ e) = 2 ^ e := by
  unfold spacing
  congr 1
  by_cases h0 : k = 0
  · subst h0
    rcases he with rfl | he
    · rfl
    · omega
  · have hne : k * 2 ^ e ≠ 0 := Nat.mul_ne_zero h0 (Nat.two_pow_pos e).ne'
    have hlog : (k * 2 ^ e).log2 < 53 + e := by
      rw [Nat.log2_lt hne, Nat.pow_add]
      exact Nat.mul_lt_mul_of_pos_right hk (Nat.two_pow_pos e)
    rcases he with rfl | he
    · omega
    · have : 52 + e ≤ (k * 2 ^ e).log2 := by
        rw [Nat.le_log2 hne, Nat.pow_add]
        exact Nat.mul_le_mul_right _ he
      omega

/-- Above the finest grid a significand has all its bits. -/
theorem two_pow_le_div_spacing {n : Nat} (h : n.log2 + 1 - 53 ≠ 0) : 2 ^ 52 ≤ n / spacing n := by
  have hn : n ≠ 0 := by
    rintro rfl
    exact h rfl
  rw [Nat.le_div_iff_mul_le (spacing_pos n)]
  unfold spacing
  rw [← Nat.pow_add]
  exact (Nat.pow_le_pow_right Nat.two_pos (by omega)).trans (Nat.log2_self_le hn)

/-- A magnitude counted in its own spacing: so many steps on a grid whose steps are a power of
two. -/
theorem exists_significand {n : Nat} (hn : spacing n ∣ n) :
    ∃ k, n = k * spacing n ∧ k < 2 ^ 53 ∧ (n.log2 + 1 - 53 = 0 ∨ 2 ^ 52 ≤ k) :=
  ⟨n / spacing n, (Nat.div_mul_cancel hn).symm, div_spacing_lt n,
    or_iff_not_imp_left.mpr two_pow_le_div_spacing⟩

/-- Rounding keeps all the bits of the significand it stops at. -/
theorem two_pow_le_nearestEven (num den : Nat) (h : (num / den).log2 + 1 - 53 ≠ 0) :
    2 ^ 52 ≤ nearestEven num (den * spacing (num / den)) := by
  refine le_trans ?_ (le_nearestEven _ _)
  rw [← Nat.div_div_eq_div_mul]
  exact two_pow_le_div_spacing h

/-- An even significand stays even when its magnitude is looked at afresh. Rounding up into the next
binade doubles the spacing, but only ever lands on `2 ^ 53`, and half of that is even too. -/
theorem even_roundUnits_div_spacing {num den : Nat}
    (h : Even (nearestEven num (den * spacing (num / den)))) :
    Even (roundUnits num den / spacing (roundUnits num den)) := by
  have hle := nearestEven_spacing_le num den
  have hbits : (num / den).log2 + 1 - 53 = 0 ∨
      2 ^ 52 ≤ nearestEven num (den * spacing (num / den)) := by
    by_cases h0 : (num / den).log2 + 1 - 53 = 0
    · exact Or.inl h0
    · exact Or.inr (two_pow_le_nearestEven num den h0)
  unfold roundUnits
  dsimp only
  generalize hk : nearestEven num (den * spacing (num / den)) = k at *
  unfold spacing at hk ⊢
  generalize (num / den).log2 + 1 - 53 = e at *
  rcases Nat.lt_or_ge k (2 ^ 53) with hlt | hge
  · have := spacing_mul_two_pow hlt hbits
    unfold spacing at this
    rw [this, Nat.mul_div_cancel _ (Nat.two_pow_pos e)]
    exact h
  -- Rounding up left the binade. The magnitude is a power of two, its significand `2 ^ 52`.
  · have hk' : k = 2 ^ 53 := by omega
    subst hk'
    rw [← Nat.pow_add, Nat.log2_two_pow, Nat.pow_div (by omega) (by decide)]
    refine Nat.even_pow.mpr ⟨by decide, by omega⟩

/-! ## What needs no rounding -/

theorem nearestEven_mul_right {k den : Nat} (hd : 0 < den) : nearestEven (k * den) den = k := by
  unfold nearestEven
  rw [Nat.mul_div_cancel _ hd, Nat.mul_mod_left]
  exact if_pos (by omega)

/-- A whole number of units that 53 bits can hold is its own rounding. -/
theorem roundUnits_of_spaced {n : Nat} (h : spacing n ∣ n) : roundUnits n 1 = n := by
  have hk : nearestEven n (spacing n) * spacing n = n := by
    obtain ⟨k, hk⟩ := h
    have := nearestEven_mul_right (k := k) (spacing_pos n)
    rw [Nat.mul_comm k, ← hk] at this
    rw [this, Nat.mul_comm, ← hk]
  unfold roundUnits
  dsimp only
  rw [Nat.div_one, Nat.one_mul]
  exact hk

theorem Binary64.round_units (s : Sign) (m : Magnitude) :
    Binary64.round s m.units 1 = Binary64.finite s m := by
  have h := roundUnits_of_spaced m.spaced
  unfold Binary64.round
  rw [dif_pos (by rw [h]; exact m.bounded)]
  exact congrArg _ (Magnitude.ext_units h)

/-! ## The promise is kept -/

namespace Magnitude

theorem toRat_inj {m n : Magnitude} : m.toRat = n.toRat ↔ m = n := by
  constructor
  · intro h
    have hu : (unitsPerOne : ℚ≥0) ≠ 0 := by
      exact_mod_cast unitsPerOne_pos.ne'
    unfold toRat at h
    rw [div_left_inj' hu] at h
    exact ext_units (by exact_mod_cast h)
  · rintro rfl
    rfl

theorem distance_eq (m : Magnitude) (num den : Nat) :
    m.distance (num / (den * unitsPerOne)) = |(m.units : ℚ) - num / den| / unitsPerOne := by
  have hu : (0 : ℚ) < unitsPerOne := by exact_mod_cast unitsPerOne_pos
  calc
    m.distance (num / (den * unitsPerOne)) = |((m.units : ℚ) - num / den) / unitsPerOne| := by
      unfold distance toRat
      push_cast
      rw [sub_div, div_div]
    _ = |(m.units : ℚ) - num / den| / unitsPerOne := by rw [abs_div, abs_of_pos hu]

/-- **Rounding rounds to nearest, ties to even.** -/
theorem isNearest_roundUnits {num den : Nat} (hd : 0 < den)
    (h : roundUnits num den < overflowUnits) :
    IsNearest ⟨roundUnits num den, spacing_dvd_roundUnits num den, h⟩
      (num / (den * unitsPerOne)) := by
  have hu : (0 : ℚ) < unitsPerOne := by exact_mod_cast unitsPerOne_pos
  constructor
  · intro n
    rw [distance_eq, distance_eq]
    exact div_le_div_of_nonneg_right (abs_roundUnits_sub_le hd n.spaced) hu.le
  · intro n heq hne
    rw [distance_eq, distance_eq, div_left_inj' hu.ne'] at heq
    refine even_roundUnits_div_spacing (even_nearestEven_of_eq hd n.spaced ?_ heq)
    exact fun hunits => hne (ext_units hunits)

end Magnitude

end Beamline
