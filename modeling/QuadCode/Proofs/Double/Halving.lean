import QuadCode.Proofs.Double.Arithmetic

/-!
# Halving a region again and again

A span of doubles is halved at its rounded middle, and each half is halved again.  How long is it
before two bounds coincide?  In a region of `n` units the bounds are never rounded by more than half
the grain of `n`, so a span that is cut from it by `k` halvings is less than one grain shorter than
its share `n / 2 ^ k`.  As long as that share is a grain or more, the span keeps a positive length.

Two things could spoil this count.  The difference of the bounds could be rounded, but it never is:
unless a span begins at zero, its upper bound is at most twice the lower one, or one unit more.  And
half an odd number of units is rounded before the sum is rounded once more.  Both roundings together
exceed half a grain only if the grain is two units; there the bounds are looked at modulo four.

Main statements:

* `Roomy.start`: a region of `2 ^ levels` units or more has room for 52 halvings at most;
* `Roomy.halves`: both halves of a span have room for one halving less;
* `Counts.middle_grid`: a span whose length is a power of two is halved exactly.
-/

namespace QuadCode.Double

/-- A size that a double can have: 53 bits at most, moved up by some number of places. -/
def Fits (n : ℕ) : Prop :=
  ∃ m k : ℕ, m < 2 ^ 53 ∧ n = m * 2 ^ k

theorem fits_of_lt {n : ℕ} (h : n < 2 ^ 53) : Fits n :=
  ⟨n, 0, h, by rw [pow_zero, mul_one]⟩

theorem Counts.fits {x : Float} {n : ℕ} (h : Counts x n) : Fits n := by
  rcases h.holds.zero_or_finite with ⟨-, rfl⟩ | ⟨m, e, -, -, rfl, hm, -⟩
  · exact fits_of_lt (Nat.two_pow_pos 53)
  · exact ⟨m, (e + 1074).toNat, hm, rfl⟩

theorem Counts.lt {x y : Float} {m n : ℕ} (hx : Counts x m) (hy : Counts y n) (h : m < n) :
    x < y := by
  refine lt_iff.mpr ⟨(isFinite_iff.mp hx.1).1, (isFinite_iff.mp hy.1).1, ?_⟩
  rw [hx.2, hy.2]
  exact_mod_cast h

namespace Fits

variable {m n : ℕ}

theorem nearestUnits_eq (h : Fits n) : nearestUnits n = n := by
  obtain ⟨m, k, hm, rfl⟩ := h
  exact nearestUnits_of_short k hm

/-- An odd size is not moved up. -/
theorem lt_of_odd (h : Fits n) (hodd : n % 2 = 1) : n < 2 ^ 53 := by
  obtain ⟨m, k, hm, rfl⟩ := h
  cases k with
  | zero => rwa [pow_zero, mul_one]
  | succ k =>
      rw [pow_succ, ← mul_assoc] at hodd
      omega

theorem half (h : Fits (2 * n)) : Fits n := by
  obtain ⟨m, k, hm, hn⟩ := h
  cases k with
  | zero =>
      rw [pow_zero, mul_one] at hn
      exact fits_of_lt (by omega)
  | succ k =>
      rw [pow_succ, ← mul_assoc] at hn
      exact ⟨m, k, hm, by omega⟩

/-- The difference of two sizes needs no rounding if one is at most twice the other. -/
theorem sub (hm : Fits m) (hn : Fits n) (hle : m ≤ n) (hnear : n ≤ 2 * m) : Fits (n - m) := by
  obtain ⟨a, k, ha, rfl⟩ := hm
  obtain ⟨b, l, hb, rfl⟩ := hn
  -- The difference is a multiple of the smaller of both steps.
  rcases Nat.le_total k l with hkl | hlk
  · obtain ⟨d, rfl⟩ := Nat.exists_eq_add_of_le hkl
    have hsplit : b * 2 ^ (k + d) = b * 2 ^ d * 2 ^ k := by ring
    rw [hsplit] at hle hnear ⊢
    have hfew : b * 2 ^ d ≤ 2 * a := by
      rw [← mul_assoc] at hnear
      exact Nat.le_of_mul_le_mul_right hnear (Nat.two_pow_pos k)
    exact ⟨b * 2 ^ d - a, k, by omega, (Nat.sub_mul ..).symm⟩
  · obtain ⟨d, rfl⟩ := Nat.exists_eq_add_of_le hlk
    have hsplit : a * 2 ^ (l + d) = a * 2 ^ d * 2 ^ l := by ring
    rw [hsplit]
    exact ⟨b - a * 2 ^ d, l, by omega, (Nat.sub_mul ..).symm⟩

end Fits

theorem grain_of_lt {n : ℕ} (h : n < 2 ^ 53) : grain n = 0 := by
  have hgrain := grain_floor (x := n) (g := 0) (by exact_mod_cast h) (Or.inl rfl)
  rwa [Nat.floor_natCast] at hgrain

theorem grain_of_lt_two {n : ℕ} (hlow : 2 ^ 53 ≤ n) (hhigh : n < 2 ^ 54) : grain n = 1 := by
  have hgrain := grain_floor (x := n) (g := 1) (by exact_mod_cast hhigh)
    (Or.inr (by exact_mod_cast hlow))
  rwa [Nat.floor_natCast] at hgrain

/-- Half an odd size is rounded to an even number of units. -/
theorem nearestUnits_half_odd {c : ℕ} (h : 2 * c + 1 < 2 ^ 53) :
    nearestUnits (((2 * c + 1 : ℕ) : ℚ) / 2) = c + c % 2 := by
  have hhalf : ((2 * c + 1 : ℕ) : ℚ) / 2 = ((c : ℚ) + 1 / 2) * 2 ^ 0 := by
    push_cast
    ring
  have hshort : (c : ℚ) + 1 / 2 < 2 ^ 53 := by
    have : ((2 * c + 1 : ℕ) : ℚ) < (2 ^ 53 : ℕ) := by exact_mod_cast h
    push_cast at this
    linarith
  rw [hhalf, nearestUnits_mul_two_pow hshort (Or.inl rfl), roundEven_half, pow_zero, mul_one]

/-- Where the grain is two units, an odd size is rounded to a multiple of four. -/
theorem nearestUnits_odd {e : ℕ} (hlow : 2 ^ 53 ≤ 2 * e + 1) (hhigh : 2 * e + 1 < 2 ^ 54) :
    nearestUnits ((2 * e + 1 : ℕ) : ℚ) = (e + e % 2) * 2 := by
  have hhalf : ((2 * e + 1 : ℕ) : ℚ) / 2 ^ 1 = (e : ℚ) + 1 / 2 := by
    push_cast
    ring
  rw [nearestUnits, Nat.floor_natCast, grain_of_lt_two hlow hhigh, hhalf, roundEven_half, pow_one]

theorem nearestUnits_two_mul {e : ℕ} (h : e < 2 ^ 53) : nearestUnits ((2 * e : ℕ) : ℚ) = 2 * e :=
  Fits.nearestUnits_eq ⟨e, 1, h, by rw [pow_one, mul_comm]⟩

/-- A span in a region of `n` units that has room for a number of halvings. -/
structure Roomy (n levels a b : ℕ) : Prop where
  lower : Fits a
  upper : Fits b
  within : b ≤ n
  /-- The lower bound is zero or about half the upper one, so their difference is exact. -/
  near : a = 0 ∨ b ≤ 2 * a + 1
  /-- The length is more than one grain less than that of `2 ^ levels` grains. -/
  room : a + 2 ^ levels * 2 ^ grain n < b + 2 ^ grain n
  /-- If the grain is two units, the length is one unit less than that of `2 ^ levels` grains only
  where odd sizes are not rounded, or where rounding cannot take away another unit. -/
  tight : grain n = 1 → a + 2 * 2 ^ levels = b + 1 → b ≤ 2 ^ 53 ∨ a % 4 = 1

namespace Roomy

variable {n levels a b : ℕ}

/-- A span with room for any number of halvings has a positive length. -/
theorem lt (h : Roomy n levels a b) : a < b := by
  have hroom := h.room
  have hone : 2 ^ grain n ≤ 2 ^ levels * 2 ^ grain n :=
    Nat.le_mul_of_pos_left _ (Nat.two_pow_pos levels)
  omega

/-- A region whose size is as great as a power of two has room for that many halvings, up to 52. -/
theorem start (hn : Fits n) (hlevels : levels ≤ 52) (hroom : 2 ^ levels ≤ n) :
    Roomy n levels 0 n := by
  have hpow : 2 ^ levels ≤ 2 ^ 52 := Nat.pow_le_pow_right Nat.two_pos hlevels
  refine ⟨fits_of_lt (Nat.two_pow_pos 53), hn, le_rfl, Or.inl rfl, ?_, ?_⟩
  · rcases Nat.eq_zero_or_pos (grain n) with hgrain | hgrain
    · rw [hgrain]
      omega
    · have hfull := two_pow_grain_le hgrain
      rw [pow_add] at hfull
      have hmul := Nat.mul_le_mul_right (2 ^ grain n) hpow
      have hpos := Nat.two_pow_pos (grain n)
      omega
  · intro hgrain hsum
    have hfull := two_pow_grain_le (n := n) (by omega)
    rw [hgrain] at hfull
    omega

/-- The middle of a span: the length is exact, and half of it is rounded only if it is odd. -/
theorem middleUnits_cases (h : Roomy n levels a b) :
    (∃ c, b = a + 2 * c ∧ middleUnits a b = nearestUnits ((a + c : ℕ) : ℚ)) ∨
    ∃ c, b = a + (2 * c + 1) ∧ 2 * c + 1 < 2 ^ 53 ∧
      middleUnits a b = nearestUnits ((a + (c + c % 2) : ℕ) : ℚ) := by
  have hlt := h.lt
  have hexact : Fits (b - a) := by
    rcases h.near with rfl | hnear
    · exact h.upper
    · by_cases htwice : b ≤ 2 * a
      · exact h.lower.sub h.upper hlt.le htwice
      · have := h.upper.lt_of_odd (by omega)
        exact fits_of_lt (by omega)
  have hmiddle : middleUnits a b = nearestUnits ((a + nearestUnits ((b - a : ℕ) / 2) : ℕ) : ℚ) := by
    rw [middleUnits, hexact.nearestUnits_eq]
  rcases Nat.even_or_odd' (b - a) with ⟨c, hc | hc⟩
  · left
    rw [hc] at hexact hmiddle
    have hhalf : ((2 * c : ℕ) : ℚ) / 2 = c := by
      push_cast
      ring
    rw [hhalf, hexact.half.nearestUnits_eq] at hmiddle
    exact ⟨c, by omega, hmiddle⟩
  · right
    rw [hc] at hexact hmiddle
    have hshort := hexact.lt_of_odd (by omega)
    rw [nearestUnits_half_odd hshort] at hmiddle
    exact ⟨c, by omega, hshort, hmiddle⟩

/-- An odd length at the end of which sizes are rounded begins with an odd size. -/
theorem odd_lower (h : Roomy n levels a b) {c : ℕ} (hb : b = a + (2 * c + 1))
    (hlong : 2 ^ 53 < b) : a % 2 = 1 ∧ a < 2 ^ 53 := by
  have hupper : b % 2 ≠ 1 := fun hodd => hlong.not_ge (h.upper.lt_of_odd hodd).le
  have hodd : a % 2 = 1 := by omega
  exact ⟨hodd, h.lower.lt_of_odd hodd⟩

theorem two_pow_grain_mono {m : ℕ} (hm : m ≤ n) : 2 ^ grain m ≤ 2 ^ grain n :=
  Nat.pow_le_pow_right Nat.two_pos (grain_mono hm)

/-- Unless the grain is two units, the middle is off by half a grain at most. -/
theorem middleUnits_near (h : Roomy n levels a b) (hgrain : grain n ≠ 1) :
    2 * middleUnits a b ≤ a + b + 2 ^ grain n ∧ a + b ≤ 2 * middleUnits a b + 2 ^ grain n := by
  have hwithin := h.within
  have hpos := Nat.two_pow_pos (grain n)
  rcases h.middleUnits_cases with ⟨c, rfl, hmiddle⟩ | ⟨c, rfl, hshort, hmiddle⟩
  · obtain ⟨hhigh, hlow⟩ := nearestUnits_near (a + c)
    have hstep : 2 ^ grain (a + c) ≤ 2 ^ grain n := two_pow_grain_mono (by omega)
    rw [hmiddle]
    omega
  · by_cases hexact : a + (c + c % 2) < 2 ^ 53
    · rw [hmiddle, (fits_of_lt hexact).nearestUnits_eq]
      omega
    · -- Half the length is rounded and so is the sum: three half units, but then there are more
      -- than two units in a grain.
      obtain ⟨-, hlower⟩ := h.odd_lower rfl (by omega)
      have htwo : grain (a + (c + c % 2)) = 1 := grain_of_lt_two (by omega) (by omega)
      obtain ⟨hhigh, hlow⟩ := nearestUnits_near (a + (c + c % 2))
      rw [htwo] at hhigh hlow
      have hmore : 2 ^ 2 ≤ 2 ^ grain n := by
        have := grain_mono (show a + (c + c % 2) ≤ n by omega)
        exact Nat.pow_le_pow_right Nat.two_pos (by omega)
      rw [hmiddle]
      omega

/-- Where the grain is two units, rounding may take three half units from one of the halves.  Still
both of them have room, and those with no unit to spare are in the right place modulo four. -/
theorem halves_of_grain_two (h : Roomy n (levels + 1) a b) (hgrain : grain n = 1) (hn : n < 2 ^ 54) :
    (a + 2 * 2 ^ levels < middleUnits a b + 2 ∧ middleUnits a b + 2 * 2 ^ levels < b + 2) ∧
      (a + 2 * 2 ^ levels = middleUnits a b + 1 → middleUnits a b ≤ 2 ^ 53 ∨ a % 4 = 1) ∧
        (middleUnits a b + 2 * 2 ^ levels = b + 1 → b ≤ 2 ^ 53 ∨ middleUnits a b % 4 = 1) := by
  have hwithin := h.within
  have hroom := h.room
  have htight := h.tight hgrain
  rw [hgrain, pow_succ] at hroom
  rw [pow_succ] at htight
  have hpow : 2 ^ levels = 1 ∨ 2 ^ levels % 2 = 0 := by
    cases levels with
    | zero => exact Or.inl rfl
    | succ levels => exact Or.inr (by rw [pow_succ]; omega)
  generalize 2 ^ levels = p at hroom htight hpow ⊢
  rcases h.middleUnits_cases with ⟨c, rfl, hmiddle⟩ | ⟨c, rfl, hshort, hmiddle⟩
  · rw [hmiddle]
    by_cases hexact : a + c < 2 ^ 53
    · rw [(fits_of_lt hexact).nearestUnits_eq]
      omega
    · -- Only the sum is rounded, by one unit, and only if half the length is odd.
      have heven : (a + 2 * c) % 2 ≠ 1 := fun hodd => by
        have := h.upper.lt_of_odd hodd
        omega
      rcases Nat.even_or_odd' (a + c) with ⟨e, he | he⟩
      · rw [he, nearestUnits_two_mul (by omega)]
        omega
      · rw [he, nearestUnits_odd (by omega) (by omega)]
        omega
  · rw [hmiddle]
    by_cases hexact : a + (c + c % 2) < 2 ^ 53
    · rw [(fits_of_lt hexact).nearestUnits_eq]
      omega
    · -- Half the length is rounded to an even size, so the sum is odd and rounded as well.
      obtain ⟨hodd, hlower⟩ := h.odd_lower rfl (by omega)
      obtain ⟨e, he⟩ : ∃ e, a + (c + c % 2) = 2 * e + 1 := ⟨(a + (c + c % 2)) / 2, by omega⟩
      rw [he, nearestUnits_odd (by omega) (by omega)]
      omega

/-- The difference of the bounds stays exact: an upper half does not begin close to zero. -/
theorem near_upper (h : Roomy n levels a b) (hlow : a ≤ middleUnits a b) :
    middleUnits a b = 0 ∨ b ≤ 2 * middleUnits a b + 1 := by
  rcases h.near with rfl | hnear
  · right
    rcases h.middleUnits_cases with ⟨c, hb, hmiddle⟩ | ⟨c, hb, hshort, hmiddle⟩
    · rw [Nat.zero_add] at hb hmiddle
      have hexact : Fits (2 * c) := hb ▸ h.upper
      rw [hmiddle, hexact.half.nearestUnits_eq]
      omega
    · rw [hmiddle, (fits_of_lt (by omega)).nearestUnits_eq]
      omega
  · exact Or.inr (by omega)

/-- **Both halves of a span have room for one halving less.** -/
theorem halves (h : Roomy n (levels + 1) a b) (hfits : Fits (middleUnits a b))
    (hlow : a ≤ middleUnits a b) (hhigh : middleUnits a b ≤ b) :
    Roomy n levels a (middleUnits a b) ∧ Roomy n levels (middleUnits a b) b := by
  have hnear : a = 0 ∨ middleUnits a b ≤ 2 * a + 1 := h.near.imp_right hhigh.trans
  have hwithin := hhigh.trans h.within
  by_cases hgrain : grain n = 1
  · have hbits := lt_two_pow_grain n
    rw [hgrain] at hbits
    obtain ⟨⟨hleft, hright⟩, htight, htight'⟩ := h.halves_of_grain_two hgrain hbits
    refine ⟨⟨h.lower, hfits, hwithin, hnear, ?_, fun _ => htight⟩,
      ⟨hfits, h.upper, h.within, h.near_upper hlow, ?_, fun _ => htight'⟩⟩
    · rw [hgrain]
      omega
    · rw [hgrain]
      omega
  · have hroom := h.room
    rw [pow_succ, mul_assoc, mul_comm 2, ← mul_assoc] at hroom
    obtain ⟨hupper, hlower⟩ := h.middleUnits_near hgrain
    exact ⟨⟨h.lower, hfits, hwithin, hnear, by omega, fun heq => absurd heq hgrain⟩,
      ⟨hfits, h.upper, h.within, h.near_upper hlow, by omega, fun heq => absurd heq hgrain⟩⟩

end Roomy

/-- The middle of a span whose length is a power of two, in a region that is divided into fewer than
`2 ^ 53` halves of such spans, is exact. -/
theorem middleUnits_grid {c k : ℕ} (h : 2 * c + 1 < 2 ^ 53) :
    middleUnits (c * 2 ^ (k + 1)) ((c + 1) * 2 ^ (k + 1)) = (2 * c + 1) * 2 ^ k := by
  have hlength : (c + 1) * 2 ^ (k + 1) - c * 2 ^ (k + 1) = 1 * 2 ^ (k + 1) := by
    rw [← Nat.sub_mul, Nat.add_sub_cancel_left]
  have hhalf : ((1 * 2 ^ (k + 1) : ℕ) : ℚ) / 2 = ((1 * 2 ^ k : ℕ) : ℚ) := by
    push_cast
    rw [pow_succ]
    ring
  have hsum : c * 2 ^ (k + 1) + 1 * 2 ^ k = (2 * c + 1) * 2 ^ k := by ring
  rw [middleUnits, hlength, nearestUnits_of_short _ (by norm_num), hhalf,
    nearestUnits_of_short _ (by norm_num), hsum, nearestUnits_of_short _ h]

/-- The middle of two bounds that are one step of a power of two apart is exact. -/
theorem Counts.middle_grid {x y : Float} {c k : ℕ} (hx : Counts x (c * 2 ^ (k + 1)))
    (hy : Counts y ((c + 1) * 2 ^ (k + 1))) (h : 2 * c + 1 < 2 ^ 53) :
    Counts (Rect.middle x y) ((2 * c + 1) * 2 ^ k) := by
  obtain ⟨hmiddle, -, -⟩ := hx.middle hy (Nat.mul_le_mul_right _ c.le_succ)
  rwa [middleUnits_grid h] at hmiddle

end QuadCode.Double
