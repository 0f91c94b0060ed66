import QuadCode.Proofs.Double.Halving

/-!
# Where rounding goes over

A number is rounded to a size or below it as long as it is not above the middle between that size
and the next one; the middle itself goes to the neighbour that is even.  That middle is half a grain
above the size.  A grain is at most the `2 ^ 52`-th part of what is rounded, unless that is so small
that whole units are all there is, so rounding changes a number by a `2 ^ 53`-th part at most.  In
the same way two different sizes differ by a `2 ^ 53`-th part at least.

Main statements:

* `nearestUnits_le_iff`: what is rounded to a size or below it;
* `nearestUnits_relative`: how far a number is moved in proportion to its size;
* `Fits.le_sub_mul`: how far sizes are apart in proportion to themselves.
-/

namespace QuadCode.Double

theorem roundEven_le_iff {y : ℚ} (hy : 0 ≤ y) {m : ℕ} :
    roundEven y ≤ m ↔ y < m + 1 / 2 ∨ y = m + 1 / 2 ∧ m % 2 = 0 := by
  rcases lt_trichotomy y (m + 1 / 2) with hlt | rfl | hgt
  · refine iff_of_true ?_ (Or.inl hlt)
    obtain ⟨hnear, -⟩ := roundEven_near hy
    have hsmall : (roundEven y : ℚ) < m + 1 := by linarith
    exact Nat.lt_succ_iff.mp (by exact_mod_cast hsmall)
  · rw [roundEven_half]
    constructor
    · intro hle
      exact Or.inr ⟨rfl, by omega⟩
    · rintro (hlt | ⟨-, heven⟩)
      · exact absurd hlt (lt_irrefl _)
      · omega
  · refine iff_of_false (fun hle => ?_) ?_
    · obtain ⟨-, hnear⟩ := roundEven_near hy
      have hlarge : (m : ℚ) < roundEven y := by linarith
      exact hle.not_gt (by exact_mod_cast hlarge)
    · rintro (hlt | ⟨heq, -⟩) <;> linarith

/-- A number that is not above the middle between a size and the next one, or that is that middle if
the size is even. -/
def Reaches (n : ℕ) (x : ℚ) : Prop :=
  x < n + 2 ^ grain n / 2 ∨ x = n + 2 ^ grain n / 2 ∧ n / 2 ^ grain n % 2 = 0

namespace Fits

variable {m n : ℕ}

/-- A size as a number of its grains. -/
theorem exists_mantissa (h : Fits n) :
    ∃ m, n = m * 2 ^ grain n ∧ m < 2 ^ 53 ∧ (grain n = 0 ∨ 2 ^ 52 ≤ m) := by
  obtain ⟨a, k, ha, hn⟩ := h
  have hgrain : grain n ≤ k := by
    rw [hn]
    exact grain_mul_two_pow_le k ha
  obtain ⟨d, hd⟩ := Nat.exists_eq_add_of_le hgrain
  have hsplit : n = a * 2 ^ d * 2 ^ grain n := by
    conv_lhs => rw [hn, hd]
    ring
  have hpos := Nat.two_pow_pos (grain n)
  refine ⟨a * 2 ^ d, hsplit, ?_, ?_⟩
  · refine Nat.lt_of_mul_lt_mul_right (a := 2 ^ grain n) ?_
    rw [← hsplit, ← pow_add]
    exact lt_two_pow_grain n
  · refine (Nat.eq_zero_or_pos (grain n)).imp_right fun hgrain => ?_
    refine Nat.le_of_mul_le_mul_right ?_ hpos
    rw [← hsplit, ← pow_add]
    exact two_pow_grain_le hgrain

/-- **What is rounded to a size or below it.** -/
theorem nearestUnits_le_iff (h : Fits n) {x : ℚ} (hx : 0 ≤ x) :
    nearestUnits x ≤ n ↔ Reaches n x := by
  obtain ⟨m, hn, hshort, hfull⟩ := h.exists_mantissa
  generalize hg : grain n = g at hn hfull
  have hpos : (0 : ℚ) < 2 ^ g := by positivity
  have hsize : (n : ℚ) = m * 2 ^ g := by exact_mod_cast hn
  obtain ⟨y, rfl⟩ : ∃ y, x = y * 2 ^ g := ⟨x / 2 ^ g, (div_mul_cancel₀ x hpos.ne').symm⟩
  have hy : 0 ≤ y := nonneg_of_mul_nonneg_left hx hpos
  -- In steps of the grain it is a matter of rounding to whole numbers.
  have hsteps : Reaches n (y * 2 ^ g) ↔ roundEven y ≤ m := by
    have hwhole : n / 2 ^ g = m := by rw [hn, Nat.mul_div_cancel _ (Nat.two_pow_pos g)]
    have hmiddle : (n : ℚ) + 2 ^ g / 2 = (m + 1 / 2) * 2 ^ g := by rw [hsize]; ring
    rw [roundEven_le_iff hy, Reaches, hg, hwhole, hmiddle, mul_lt_mul_iff_left₀ hpos,
      mul_left_inj' hpos.ne']
  rw [hsteps]
  rcases le_or_gt y m with hle | hgt
  · refine iff_of_true ?_ (roundEven_le hle)
    rw [← h.nearestUnits_eq, hsize]
    exact nearestUnits_mono hx (mul_le_mul_of_nonneg_right hle hpos.le)
  · rcases lt_or_ge y (2 ^ 53) with hhigh | hhigh
    · have hlow : g = 0 ∨ 2 ^ 52 ≤ y := hfull.imp_right fun hfull =>
        (show (2 ^ 52 : ℚ) ≤ m by exact_mod_cast hfull).trans hgt.le
      rw [nearestUnits_mul_two_pow hhigh hlow, hn]
      exact Nat.mul_le_mul_right_iff (Nat.two_pow_pos g)
    · refine iff_of_false (fun hle => ?_) fun hle => ?_
      · have hpow : nearestUnits (2 ^ (53 + g)) ≤ nearestUnits (y * 2 ^ g) := by
          refine nearestUnits_mono (by positivity) ?_
          rw [pow_add]
          exact mul_le_mul_of_nonneg_right hhigh hpos.le
        rw [nearestUnits_two_pow, pow_add] at hpow
        have hlt : n < 2 ^ 53 * 2 ^ g := hn ▸ Nat.mul_lt_mul_of_pos_right hshort (Nat.two_pow_pos g)
        omega
      · have hpow : 2 ^ 53 ≤ roundEven y := le_roundEven (by exact_mod_cast hhigh)
        omega

/-- **Two different sizes differ by a `2 ^ 53`-th part of the greater one at least.** -/
theorem le_sub_mul (hm : Fits m) (hn : Fits n) (hlt : m < n) : n ≤ (n - m) * 2 ^ 53 := by
  obtain ⟨a, k, ha, rfl⟩ := hm
  obtain ⟨b, l, hb, rfl⟩ := hn
  -- The difference is a multiple of the smaller of both steps, and not zero.
  rcases Nat.le_total k l with hkl | hlk
  · obtain ⟨d, rfl⟩ := Nat.exists_eq_add_of_le hkl
    have hsplit : b * 2 ^ (k + d) = b * 2 ^ d * 2 ^ k := by ring
    rw [hsplit] at hlt ⊢
    have hstep := Nat.lt_of_mul_lt_mul_right hlt
    calc
      b * 2 ^ d * 2 ^ k ≤ (b * 2 ^ d - a) * 2 ^ 53 * 2 ^ k := Nat.mul_le_mul_right _ (by omega)
      _ = (b * 2 ^ d * 2 ^ k - a * 2 ^ k) * 2 ^ 53 := by rw [← Nat.sub_mul]; ring
  · obtain ⟨d, rfl⟩ := Nat.exists_eq_add_of_le hlk
    have hsplit : a * 2 ^ (l + d) = a * 2 ^ d * 2 ^ l := by ring
    rw [hsplit] at hlt ⊢
    have hstep := Nat.lt_of_mul_lt_mul_right hlt
    calc
      b * 2 ^ l ≤ (b - a * 2 ^ d) * 2 ^ 53 * 2 ^ l := Nat.mul_le_mul_right _ (by omega)
      _ = (b * 2 ^ l - a * 2 ^ d * 2 ^ l) * 2 ^ 53 := by rw [← Nat.sub_mul]; ring

/-- A smaller size is smaller by a `2 ^ 53`-th part at least. -/
theorem le_mul_of_lt (hm : Fits m) (hn : Fits n) (hlt : m < n) :
    (m : ℚ) ≤ n * (1 - 1 / 2 ^ 53) := by
  have hpart : (n : ℚ) ≤ (n - m) * 2 ^ 53 := by
    rw [← Nat.cast_sub hlt.le]
    exact_mod_cast hm.le_sub_mul hn hlt
  linarith

/-- A greater size is more than a `2 ^ 53`-th part greater. -/
theorem mul_lt_of_lt (hm : Fits m) (hn : Fits n) (hlt : m < n) :
    (m : ℚ) * (1 + 1 / 2 ^ 53) < n := by
  have hpos : (0 : ℚ) < n := by exact_mod_cast Nat.zero_lt_of_lt hlt
  have hless := hm.le_mul_of_lt hn hlt
  linarith

end Fits

/-- What is rounded to nothing. -/
theorem nearestUnits_le_zero_iff {x : ℚ} (hx : 0 ≤ x) : nearestUnits x ≤ 0 ↔ x ≤ 1 / 2 := by
  have hgrain : Reaches 0 x ↔ x < 1 / 2 ∨ x = 1 / 2 := by simp [Reaches, grain]
  rw [(fits_of_lt (Nat.two_pow_pos 53)).nearestUnits_le_iff hx, hgrain, le_iff_lt_or_eq]

/-- A grain is at most the `2 ^ 52`-th part of a size of `2 ^ 52` units or more. -/
theorem two_pow_grain_floor_le {x : ℚ} (hx : 2 ^ 52 ≤ x) : (2 : ℚ) ^ grain ⌊x⌋₊ ≤ x / 2 ^ 52 := by
  rw [le_div_iff₀ (by positivity), ← pow_add, add_comm]
  rcases Nat.eq_zero_or_pos (grain ⌊x⌋₊) with hzero | hpos
  · rw [hzero]
    exact hx
  · have hfull : (2 ^ (52 + grain ⌊x⌋₊) : ℚ) ≤ ⌊x⌋₊ := by exact_mod_cast two_pow_grain_le hpos
    exact hfull.trans (Nat.floor_le ((show (0 : ℚ) ≤ 2 ^ 52 by positivity).trans hx))

/-- A number of `2 ^ 52` units or more is moved by a `2 ^ 53`-th part at most. -/
theorem nearestUnits_relative {x : ℚ} (hx : 2 ^ 52 ≤ x) :
    nearestUnits x ≤ x * (1 + 1 / 2 ^ 53) ∧ x * (1 - 1 / 2 ^ 53) ≤ nearestUnits x := by
  have hnonneg : 0 ≤ x := (show (0 : ℚ) ≤ 2 ^ 52 by positivity).trans hx
  have hgrain := two_pow_grain_floor_le hx
  have hpos : (0 : ℚ) < 2 ^ grain ⌊x⌋₊ := by positivity
  obtain ⟨hhigh, hlow⟩ := roundEven_near (x := x / 2 ^ grain ⌊x⌋₊) (by positivity)
  have hsteps : x / 2 ^ grain ⌊x⌋₊ * 2 ^ grain ⌊x⌋₊ = x := div_mul_cancel₀ x hpos.ne'
  have hhigh := mul_le_mul_of_nonneg_right hhigh hpos.le
  have hlow := mul_le_mul_of_nonneg_right hlow hpos.le
  rw [add_mul, hsteps] at hhigh hlow
  rw [nearestUnits, Nat.cast_mul, Nat.cast_pow, Nat.cast_ofNat]
  constructor <;> linarith

section

variable {n : ℕ} {x : ℚ}

theorem reaches_of_le (h : x ≤ n) : Reaches n x :=
  Or.inl (h.trans_lt (lt_add_of_pos_right _ (by positivity)))

theorem Reaches.le (h : Reaches n x) : x ≤ n + 2 ^ grain n / 2 := by
  rcases h with hlt | ⟨heq, -⟩
  · exact hlt.le
  · exact heq.le

/-- What is rounded to a size of `2 ^ 52` units or below it is at most a `2 ^ 53`-th part above. -/
theorem Reaches.le_relative (h : Reaches n x) (hn : 2 ^ 52 ≤ n) : x ≤ n * (1 + 1 / 2 ^ 53) := by
  have hgrain := two_pow_grain_floor_le (x := n) (by exact_mod_cast hn)
  rw [Nat.floor_natCast] at hgrain
  have hle := h.le
  linarith

/-- A power of two is even in its grains, so a `2 ^ 53`-th part above it is still rounded to it. -/
theorem reaches_two_pow {m : ℕ} (h : x ≤ 2 ^ m * (1 + 1 / 2 ^ 53)) : Reaches (2 ^ m) x := by
  have hgrain : grain (2 ^ m) = m - 52 := by rw [grain, Nat.log2_two_pow]
  rcases Nat.lt_or_ge m 52 with hsmall | hlarge
  · -- Below `2 ^ 52` units that part is less than half a unit.
    have hpow : (2 : ℚ) ^ m < 2 ^ 52 := pow_lt_pow_right₀ one_lt_two hsmall
    left
    rw [hgrain, Nat.sub_eq_zero_of_le hsmall.le]
    push_cast
    linarith
  · obtain ⟨d, rfl⟩ := Nat.exists_eq_add_of_le hlarge
    rw [Reaches, hgrain, Nat.add_sub_cancel_left, Nat.pow_add, Nat.mul_div_cancel _ (Nat.two_pow_pos d)]
    have hmiddle : ((2 ^ 52 * 2 ^ d : ℕ) : ℚ) + 2 ^ d / 2 = 2 ^ (52 + d) * (1 + 1 / 2 ^ 53) := by
      push_cast
      ring
    rw [hmiddle]
    exact h.lt_or_eq.imp_right fun heq => ⟨heq, by norm_num⟩

end

end QuadCode.Double
