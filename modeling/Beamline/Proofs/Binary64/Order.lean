import Beamline.Proofs.Binary64.Exact

/-!
# Order — arithmetic does not turn values around

A sum, a product or a quotient is its exact result, rounded. So whatever can be said about the order
of results is said about rounding, and of rounding only two things are needed: it is monotone
(`roundUnits_mono`), and it leaves alone what is a value already (`nearestUnits_position`).

`nearestUnits` is the rounding with its sign, cut off where the infinities stand; it says where on
the line of units a result stands, not which of two zeros it is. That is the right amount: an order
between results is an order between places, and the operations are monotone because each of them
stands where its exact result is rounded to (`position?_add`, `position?_mul`, `position?_div`).
-/

set_option autoImplicit false

namespace Beamline

/-! ## Rounding depends on the quotient alone -/

/-- A quotient can be extended without changing what it is rounded to. Half-way stays half-way, and
the parity is of the quotient. -/
theorem nearestEven_mul_left (num den : Nat) {c : Nat} (hc : 0 < c) :
    nearestEven (c * num) (c * den) = nearestEven num den := by
  have hlow : 2 * (c * (num % den)) < c * den ↔ 2 * (num % den) < den := by
    rw [Nat.mul_left_comm]
    exact Nat.mul_lt_mul_left hc
  have hhigh : c * den < 2 * (c * (num % den)) ↔ den < 2 * (num % den) := by
    rw [Nat.mul_left_comm]
    exact Nat.mul_lt_mul_left hc
  unfold nearestEven
  dsimp only
  rw [Nat.mul_div_mul_left _ _ hc, Nat.mul_mod_mul_left]
  simp only [hlow, hhigh]

theorem roundUnits_mul_left (num den : Nat) {c : Nat} (hc : 0 < c) :
    roundUnits (c * num) (c * den) = roundUnits num den := by
  unfold roundUnits
  dsimp only
  rw [Nat.mul_div_mul_left _ _ hc, Nat.mul_assoc, nearestEven_mul_left _ _ hc]

section

variable {num den num' den' : Nat}

/-- Equal quotients are rounded alike, however they are written. -/
theorem roundUnits_congr (hd : 0 < den) (hd' : 0 < den') (h : num * den' = num' * den) :
    roundUnits num den = roundUnits num' den' :=
  calc
    roundUnits num den = roundUnits (den' * num) (den' * den) := (roundUnits_mul_left _ _ hd').symm
    _ = roundUnits (den * num') (den * den') := by
      rw [Nat.mul_comm den' num, h, Nat.mul_comm num' den, Nat.mul_comm den' den]
    _ = roundUnits num' den' := roundUnits_mul_left _ _ hd

/-! ## Rounding is monotone -/

/-- Rounding down does not pass a magnitude: it would have been nearer. -/
theorem le_roundUnits (hd : 0 < den) {n : Nat} (hn : spacing n ∣ n) (h : n * den ≤ num) :
    n ≤ roundUnits num den := by
  have hd' : (0 : ℚ) < den := by positivity
  have hq : (n : ℚ) ≤ num / den := by
    rw [le_div_iff₀ hd']
    exact_mod_cast h
  by_contra hlt
  have hlt' : (roundUnits num den : ℚ) < n := by exact_mod_cast Nat.lt_of_not_le hlt
  have hle : |(roundUnits num den : ℚ) - num / den| ≤ |(n : ℚ) - num / den| :=
    abs_roundUnits_sub_le hd hn
  rw [abs_of_nonpos (by linarith), abs_of_nonpos (by linarith)] at hle
  linarith

/-- **Rounding is monotone.** If two values were turned around, each would stand on the far side of
the other's rounding, and be no nearer to its own; so they would be the same value. -/
theorem roundUnits_mono (hd : 0 < den) (hd' : 0 < den') (h : num * den' ≤ num' * den) :
    roundUnits num den ≤ roundUnits num' den' := by
  have hdq : (0 : ℚ) < den := by positivity
  have hdq' : (0 : ℚ) < den' := by positivity
  have hle : (num : ℚ) / den ≤ num' / den' := by
    rw [div_le_div_iff₀ hdq hdq']
    exact_mod_cast h
  by_contra hturned
  have hlow : (roundUnits num' den' : ℚ) < num / den := by
    rw [lt_div_iff₀ hdq]
    by_contra hle
    exact hturned
      (roundUnits_le hd (spacing_dvd_roundUnits num' den') (by exact_mod_cast not_lt.mp hle))
  have hhigh : (num' : ℚ) / den' < roundUnits num den := by
    rw [div_lt_iff₀ hdq']
    by_contra hle
    exact hturned
      (le_roundUnits hd' (spacing_dvd_roundUnits num den) (by exact_mod_cast not_lt.mp hle))
  have hnear : |(roundUnits num den : ℚ) - num / den| ≤ |(roundUnits num' den' : ℚ) - num / den| :=
    abs_roundUnits_sub_le hd (spacing_dvd_roundUnits num' den')
  have hnear' : |(roundUnits num' den' : ℚ) - num' / den'| ≤
      |(roundUnits num den : ℚ) - num' / den'| :=
    abs_roundUnits_sub_le hd' (spacing_dvd_roundUnits num den)
  rw [abs_of_pos (by linarith), abs_of_neg (by linarith)] at hnear
  rw [abs_of_neg (by linarith), abs_of_pos (by linarith)] at hnear'
  have hsame : (num : ℚ) / den = num' / den' := by linarith
  rw [div_eq_div_iff hdq.ne' hdq'.ne'] at hsame
  exact hturned (roundUnits_congr hd hd' (by exact_mod_cast hsame)).le

end

/-! ## Rounding with a sign -/

/-- Where the value nearest to `num / den` units stands; what is too large stands with the
infinities. One whole number for results of both signs is what makes the order between them linear
arithmetic. -/
def nearestUnits (num : ℤ) (den : Nat) : ℤ :=
  (Sign.ofInt num).apply (min (roundUnits num.natAbs den) overflowUnits)

theorem nearestUnits_of_nonneg (num den : Nat) :
    nearestUnits num den = (min (roundUnits num den) overflowUnits : Nat) := by
  unfold nearestUnits Sign.ofInt
  rw [if_neg (by omega)]
  rfl

theorem nearestUnits_zero (den : Nat) : nearestUnits 0 den = 0 := by
  simp [nearestUnits, roundUnits, nearestEven, Sign.ofInt, Sign.apply]

theorem natAbs_nearestUnits (num : ℤ) (den : Nat) :
    (nearestUnits num den).natAbs = min (roundUnits num.natAbs den) overflowUnits := by
  unfold nearestUnits Sign.ofInt
  split
  · exact Int.natAbs_neg _
  · rfl

theorem nearestUnits_neg (num : ℤ) (den : Nat) :
    nearestUnits (-num) den = -nearestUnits num den := by
  unfold nearestUnits Sign.ofInt
  rw [Int.natAbs_neg]
  rcases lt_trichotomy num 0 with h | rfl | h
  · rw [if_neg (by omega), if_pos h]
    exact (neg_neg _).symm
  · exact (neg_eq_zero.mpr (nearestUnits_zero den)).symm ▸ nearestUnits_zero den
  · rw [if_pos (by omega), if_neg (by omega)]
    rfl

theorem nearestUnits_nonneg {num : ℤ} (h : 0 ≤ num) (den : Nat) : 0 ≤ nearestUnits num den := by
  lift num to ℕ using h
  rw [nearestUnits_of_nonneg]
  exact Int.natCast_nonneg _

/-- Rounding with a sign is monotone. Between two results of one sign it is the rounding of
magnitudes, turned around for negative ones; otherwise zero stands between them. -/
theorem nearestUnits_mono {num num' : ℤ} {den den' : Nat} (hd : 0 < den) (hd' : 0 < den')
    (h : num * den' ≤ num' * den) : nearestUnits num den ≤ nearestUnits num' den' := by
  have hmono : ∀ {m n d e : Nat}, 0 < d → 0 < e → (m : ℤ) * e ≤ n * d →
      nearestUnits m d ≤ nearestUnits n e := by
    intro m n d e hd he h
    rw [nearestUnits_of_nonneg, nearestUnits_of_nonneg]
    have hround := roundUnits_mono hd he (by exact_mod_cast h : m * e ≤ n * d)
    exact_mod_cast min_le_min_right overflowUnits hround
  rcases le_or_gt 0 num' with hpos' | hneg'
  · rcases le_or_gt 0 num with hpos | hneg
    · lift num to ℕ using hpos
      lift num' to ℕ using hpos'
      exact hmono hd hd' h
    · have hbelow := nearestUnits_nonneg (neg_nonneg.mpr hneg.le) den
      rw [nearestUnits_neg] at hbelow
      have habove := nearestUnits_nonneg hpos' den'
      omega
  · have hneg : num < 0 := by
      by_contra hpos
      have hleft : 0 ≤ num * den' := Int.mul_nonneg (not_lt.mp hpos) (Int.natCast_nonneg _)
      have hright : num' * den < 0 := Int.mul_neg_of_neg_of_pos hneg' (by exact_mod_cast hd)
      omega
    obtain ⟨m, rfl⟩ : ∃ m : Nat, num = -(m : ℤ) := ⟨num.natAbs, by omega⟩
    obtain ⟨n, rfl⟩ : ∃ n : Nat, num' = -(n : ℤ) := ⟨num'.natAbs, by omega⟩
    rw [nearestUnits_neg, nearestUnits_neg]
    exact neg_le_neg (hmono hd' hd (by linarith))

theorem nearestUnits_one_mono {m n : ℤ} (h : m ≤ n) : nearestUnits m 1 ≤ nearestUnits n 1 :=
  nearestUnits_mono Nat.one_pos Nat.one_pos (by simpa using h)

theorem nearestUnits_congr {num num' : ℤ} {den den' : Nat} (hd : 0 < den) (hd' : 0 < den')
    (h : num * den' = num' * den) : nearestUnits num den = nearestUnits num' den' :=
  le_antisymm (nearestUnits_mono hd hd' h.le) (nearestUnits_mono hd' hd h.ge)

theorem nearestUnits_apply (s : Sign) (n den : Nat) :
    nearestUnits (s.apply n) den = s.apply (min (roundUnits n den) overflowUnits) := by
  cases s with
  | plus => exact nearestUnits_of_nonneg n den
  | minus => exact (nearestUnits_neg n den).trans (congrArg _ (nearestUnits_of_nonneg n den))

theorem spacing_dvd_two_pow (e : Nat) : spacing (2 ^ e) ∣ 2 ^ e := by
  have h := spacing_dvd_mul_two_pow (k := 1) (e := e) (by decide)
  rwa [Nat.one_mul] at h

theorem spacing_dvd_overflowUnits : spacing overflowUnits ∣ overflowUnits :=
  spacing_dvd_two_pow overflowBits

/-! ## Where results stand -/

namespace Sign

theorem plus_apply (n : Nat) : plus.apply n = n := rfl

theorem natAbs_apply (s : Sign) (n : Nat) : (s.apply n).natAbs = n := by
  cases s with
  | plus => rfl
  | minus => exact Int.natAbs_neg n

theorem ofInt_apply (z : ℤ) : (ofInt z).apply z.natAbs = z := by
  unfold ofInt
  split <;> simp only [apply] <;> omega

theorem apply_flip (s : Sign) (n : Nat) : s.flip.apply n = -s.apply n := by
  cases s with
  | plus => rfl
  | minus => exact (neg_neg _).symm

theorem apply_times (s t : Sign) (m n : Nat) :
    (s.times t).apply (m * n) = s.apply m * t.apply n := by
  cases s <;> cases t <;> simp [times, flip, apply]

end Sign

namespace Binary64

variable {x y : Binary64} {p q : ℤ}

theorem signed_eq_some (h : x.signed = some p) : ∃ s m, x = finite s m ∧ p = s.apply m.units := by
  cases x with
  | finite s m => exact ⟨s, m, rfl, (Option.some.inj h).symm⟩
  | nan => cases h
  | infinite s => cases h

theorem isFinite_iff : x.isFinite = true ↔ ∃ p, x.signed = some p := by
  cases x <;> simp [isFinite, signed]

/-- A finite value stands at its units. -/
theorem position?_of_signed (h : x.signed = some p) : x.position? = some p := by
  obtain ⟨s, m, rfl, rfl⟩ := signed_eq_some h
  rfl

/-- What stands short of the infinities is finite. This is how an operation is shown not to
overflow: its place is known by rounding, and the place is bounded. -/
theorem signed_of_position? (h : x.position? = some p) (hp : p.natAbs < overflowUnits) :
    x.signed = some p := by
  cases x with
  | nan => cases h
  | finite s m => exact h
  | infinite s =>
    cases h
    rw [Sign.natAbs_apply] at hp
    exact absurd hp (lt_irrefl _)

theorem natAbs_lt_of_signed (h : x.signed = some p) : p.natAbs < overflowUnits := by
  obtain ⟨s, m, -, rfl⟩ := signed_eq_some h
  rw [Sign.natAbs_apply]
  exact m.bounded

/-- Whatever stands somewhere is rounded to where it stands, so a bound that is a value itself goes
through rounding unchanged. -/
theorem nearestUnits_position (h : x.position? = some p) : nearestUnits p 1 = p := by
  cases x with
  | nan => cases h
  | infinite s =>
    cases h
    rw [nearestUnits_apply, roundUnits_of_spaced spacing_dvd_overflowUnits, min_self]
  | finite s m =>
    cases h
    rw [nearestUnits_apply, roundUnits_of_spaced m.spaced, min_eq_left m.bounded.le]

/-- Every operation ends in `round`, and this is where that stands. -/
theorem position?_round (s : Sign) (num den : Nat) :
    (round s num den).position? = some (nearestUnits (s.apply num) den) := by
  rw [nearestUnits_apply]
  unfold round
  split
  next h => rw [min_eq_left h.le]; rfl
  next h => rw [min_eq_right (not_lt.mp h)]; rfl

theorem signed_neg (h : x.signed = some p) : (-x).signed = some (-p) := by
  obtain ⟨s, m, rfl, rfl⟩ := signed_eq_some h
  exact congrArg some (s.apply_flip m.units)

/-- A sum stands where the sum of the units is rounded to. A sum of zero has a sign of its own,
which is lost here. -/
theorem position?_add (hx : x.signed = some p) (hy : y.signed = some q) :
    (x + y).position? = some (nearestUnits (p + q) 1) := by
  obtain ⟨s, m, rfl, rfl⟩ := signed_eq_some hx
  obtain ⟨t, n, rfl, rfl⟩ := signed_eq_some hy
  show (addFinite s m t n).position? = _
  unfold addFinite
  dsimp only
  split
  next hzero =>
    rw [hzero]
    split <;> cases s <;>
      simp [zero, Magnitude.zero, position?, Sign.apply, nearestUnits, roundUnits,
      nearestEven, Sign.ofInt]
  next =>
    rw [position?_round, nearestUnits_apply]
    rfl

theorem position?_sub (hx : x.signed = some p) (hy : y.signed = some q) :
    (x - y).position? = some (nearestUnits (p - q) 1) :=
  position?_add hx (signed_neg hy)

theorem mul_finite (s : Sign) (m : Magnitude) (t : Sign) (n : Magnitude) :
    finite s m * finite t n = round (s.times t) (m.units * n.units) unitsPerOne := by
  show mul (finite s m) (finite t n) = _
  rw [mul]

theorem position?_mul (hx : x.signed = some p) (hy : y.signed = some q) :
    (x * y).position? = some (nearestUnits (p * q) unitsPerOne) := by
  obtain ⟨s, m, rfl, rfl⟩ := signed_eq_some hx
  obtain ⟨t, n, rfl, rfl⟩ := signed_eq_some hy
  rw [mul_finite, position?_round, Sign.apply_times]

theorem div_finite (s : Sign) (m : Magnitude) (t : Sign) {n : Magnitude} (hn : n.units ≠ 0) :
    finite s m / finite t n = round (s.times t) (m.units * unitsPerOne) n.units :=
  if_neg hn

/-- A quotient by a positive number of units. Divisors are counts, widths and means; only where the
sign of one is known is the order of quotients. -/
theorem position?_div {d : Nat} (hx : x.signed = some p) (hy : y.signed = some (d : ℤ))
    (hd : 0 < d) :
    (x / y).position? = some (nearestUnits (p * unitsPerOne) d) := by
  obtain ⟨s, m, rfl, rfl⟩ := signed_eq_some hx
  obtain ⟨t, n, rfl, hn⟩ := signed_eq_some hy
  obtain ⟨rfl, rfl⟩ : t = .plus ∧ n.units = d := by
    cases t with
    | plus => exact ⟨rfl, Int.ofNat.inj hn.symm⟩
    | minus => simp only [Sign.apply] at hn; omega
  rw [div_finite s m .plus hd.ne', position?_round, Sign.apply_times, Sign.plus_apply]

/-! ## Comparing -/

/-- Where a value stands. NaN stands nowhere, and is given the place of zero; what is said about
places is said of values that stand somewhere. -/
def place (x : Binary64) : ℤ := x.position?.getD 0

theorem place_eq (h : x.position? = some p) : x.place = p := by
  unfold place
  rw [h]
  rfl

theorem signed_place (h : x.isFinite = true) : x.signed = some x.place := by
  obtain ⟨p, hp⟩ := isFinite_iff.mp h
  rw [place_eq (position?_of_signed hp), hp]

theorem position?_place (h : x.isFinite = true) : x.position? = some x.place :=
  position?_of_signed (signed_place h)

/-- Comparing finite values is comparing their places, so the two zeros are not told apart. -/
theorem lt_eq (hx : x.isFinite = true) (hy : y.isFinite = true) :
    x.lt y = decide (x.place < y.place) := by
  unfold lt
  rw [position?_place hx, position?_place hy]

theorem le_eq (hx : x.isFinite = true) (hy : y.isFinite = true) :
    x.le y = decide (x.place ≤ y.place) := by
  unfold le
  rw [position?_place hx, position?_place hy]

theorem natAbs_place_lt (h : x.isFinite = true) : x.place.natAbs < overflowUnits :=
  natAbs_lt_of_signed (signed_place h)

theorem place_le (x : Binary64) : x.place ≤ overflowUnits := by
  have hpos := overflowUnits_pos
  cases x with
  | nan => exact Int.natCast_nonneg _
  | infinite s =>
    have habs := Sign.natAbs_apply s overflowUnits
    show s.apply overflowUnits ≤ _
    omega
  | finite s m =>
    have hlt : (finite s m).place.natAbs < overflowUnits := natAbs_place_lt rfl
    omega

theorem overflowUnits_div : overflowUnits / unitsPerOne = 2 ^ (overflowBits - oneBits) := by
  unfold overflowUnits unitsPerOne
  exact Nat.pow_div (by decide) Nat.two_pos

/-- The whole part of a value is that of its place, saturating at zero and at the limit. NaN goes
with zero, as it does in the definition. -/
theorem truncate_eq {limit : Nat} (h : limit ≤ 2 ^ (overflowBits - oneBits)) (x : Binary64) :
    truncate limit x = min (x.place / unitsPerOne).toNat limit := by
  have hnegative : ∀ n : Nat, (-(n : ℤ) / unitsPerOne).toNat = 0 := by
    intro n
    have hle := Int.ediv_le_ediv (Int.natCast_pos.mpr unitsPerOne_pos) (by omega : -(n : ℤ) ≤ 0)
    rw [Int.zero_ediv] at hle
    exact Int.toNat_eq_zero.mpr hle
  cases x with
  | nan =>
    have hplace : nan.place = 0 := rfl
    rw [hplace, Int.zero_ediv]
    exact (Nat.zero_min limit).symm
  | infinite s =>
    cases s with
    | plus =>
      have hplace : (infinite .plus).place = overflowUnits := rfl
      rw [hplace, ← Int.natCast_ediv, Int.toNat_natCast, overflowUnits_div, min_eq_right h]
      rfl
    | minus =>
      have hplace : (infinite .minus).place = -(overflowUnits : ℤ) := rfl
      rw [hplace, hnegative]
      exact (Nat.zero_min limit).symm
  | finite s m =>
    cases s with
    | plus =>
      have hplace : (finite .plus m).place = m.units := rfl
      rw [hplace, ← Int.natCast_ediv, Int.toNat_natCast]
      rfl
    | minus =>
      have hplace : (finite .minus m).place = -(m.units : ℤ) := rfl
      rw [hplace, hnegative]
      exact (Nat.zero_min limit).symm

/-! ## Counts -/

/-- Stated of the functions: applied to a count, unfolding would go on into the units. -/
theorem natCast_eq_ofNat : (Nat.cast : Nat → Binary64) = ofNat := rfl

theorem natCast_eq (n : Nat) : (n : Binary64) = round .plus (n * unitsPerOne) 1 :=
  (congrFun natCast_eq_ofNat n).trans (Eq.refl (ofNat n))

theorem position?_natCast (n : Nat) :
    (n : Binary64).position? = some (nearestUnits ((n * unitsPerOne : Nat) : ℤ) 1) := by
  rw [natCast_eq, position?_round, Sign.plus_apply]

/-- A count of at most 53 bits is a value. Counts of bins and of particles are such, and arithmetic
with them rounds only once. -/
theorem signed_natCast {n : Nat} (hn : n ≤ 2 ^ 53) :
    (n : Binary64).signed = some ((n * unitsPerOne : Nat) : ℤ) := by
  have hbound : n * unitsPerOne < overflowUnits := mul_unitsPerOne_lt hn (by decide)
  refine signed_of_position? ?_ (by rw [Int.natAbs_natCast]; exact hbound)
  have hspaced : spacing (n * unitsPerOne) ∣ n * unitsPerOne := spacing_dvd_mul_two_pow hn
  rw [position?_natCast, nearestUnits_of_nonneg, roundUnits_of_spaced hspaced,
    min_eq_left hbound.le]

/-! ## Operations on finite values, by their places -/

section

variable (hx : x.isFinite = true) {n : Nat}

include hx

theorem place_add (hy : y.isFinite = true) : (x + y).place = nearestUnits (x.place + y.place) 1 :=
  place_eq (position?_add (signed_place hx) (signed_place hy))

theorem place_sub (hy : y.isFinite = true) : (x - y).place = nearestUnits (x.place - y.place) 1 :=
  place_eq (position?_sub (signed_place hx) (signed_place hy))

/-- A multiple is a whole number of units before it is rounded. -/
theorem position?_mul_natCast (hn : n ≤ 2 ^ 53) :
    (x * (n : Binary64)).position? = some (nearestUnits (x.place * n) 1) := by
  rw [position?_mul (signed_place hx) (signed_natCast hn)]
  have hunits : x.place * ((n * unitsPerOne : Nat) : ℤ) * (1 : Nat) =
      x.place * n * unitsPerOne := by
    push_cast
    ring
  exact congrArg some (nearestUnits_congr unitsPerOne_pos Nat.one_pos hunits)

/-- A part of a value is that part of its units. -/
theorem position?_div_natCast (hpos : 0 < n) (hn : n ≤ 2 ^ 53) :
    (x / (n : Binary64)).position? = some (nearestUnits x.place n) := by
  have hd : 0 < n * unitsPerOne := Nat.mul_pos hpos unitsPerOne_pos
  rw [position?_div (signed_place hx) (signed_natCast hn) hd]
  have hunits : x.place * unitsPerOne * n = x.place * ((n * unitsPerOne : Nat) : ℤ) := by
    push_cast
    ring
  exact congrArg some (nearestUnits_congr hd hpos hunits)

end

/-- What stands between two finite values is finite. Edges and points between the ends of a range
are so found to be finite without looking at how they are computed. -/
theorem isFinite_of_between {z : Binary64} (hx : x.isFinite = true) (hy : y.isFinite = true)
    (hz : z.position? = some p) (hlow : x.place ≤ p) (hhigh : p ≤ y.place) : z.isFinite = true := by
  have hleft := natAbs_place_lt hx
  have hright := natAbs_place_lt hy
  exact isFinite_iff.mpr ⟨p, signed_of_position? hz (by omega)⟩

/-! ## A finite result has finite terms -/

/-- Where the first term is finite, only the second could have spoiled the sum. -/
theorem isFinite_of_add (h : (x + y).isFinite = true) (hx : x.isFinite = true) :
    y.isFinite = true := by
  cases x with
  | nan => cases hx
  | infinite s => cases hx
  | finite s m =>
    cases y with
    | nan => cases h
    | infinite t => cases h
    | finite t n => rfl

theorem isFinite_of_mul_left (h : (x * y).isFinite = true) : x.isFinite = true := by
  cases x with
  | nan => cases h
  | infinite s =>
    cases y with
    | nan => cases h
    | infinite t => cases h
    | finite t n =>
      have hmul : infinite s * finite t n = if n.units = 0 then nan else infinite (s.times t) := rfl
      rw [hmul] at h
      split at h <;> cases h
  | finite s m => rfl

theorem isFinite_of_div_left (h : (x / y).isFinite = true) : x.isFinite = true := by
  cases x with
  | nan => cases h
  | infinite s => cases y <;> cases h
  | finite s m => rfl

/-! ## As rational numbers -/

/-- The number that a finite value is. Places are compared as whole numbers; where a bound has a
factor that is not one, it is said of these. -/
def toRat (x : Binary64) : ℚ := x.place / unitsPerOne

theorem unitsPerOne_cast_pos : (0 : ℚ) < unitsPerOne := by
  exact_mod_cast unitsPerOne_pos

theorem toRat_mul (x : Binary64) : x.toRat * unitsPerOne = x.place :=
  div_mul_cancel₀ _ unitsPerOne_cast_pos.ne'

section

variable {s : ℚ}

/-- A bound between places is one between numbers, the slack taken in units. -/
theorem toRat_le_add (h : (x.place : ℚ) ≤ y.place + s * unitsPerOne) : x.toRat ≤ y.toRat + s := by
  refine le_of_mul_le_mul_right ?_ unitsPerOne_cast_pos
  rwa [add_mul, toRat_mul, toRat_mul]

theorem toRat_lt_add (h : (x.place : ℚ) < y.place + s * unitsPerOne) : x.toRat < y.toRat + s := by
  refine lt_of_mul_lt_mul_right ?_ unitsPerOne_cast_pos.le
  rwa [add_mul, toRat_mul, toRat_mul]

end

end Binary64
end Beamline
