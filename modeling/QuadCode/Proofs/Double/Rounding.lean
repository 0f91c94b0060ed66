import Mathlib.Data.Nat.Log
import Mathlib.Data.Rat.Floor
import Mathlib.Tactic.FieldSimp
import Mathlib.Tactic.Linarith
import Mathlib.Tactic.NormNum
import Mathlib.Tactic.Positivity
import Mathlib.Tactic.Ring

/-!
# Rounding to doubles

The sizes of the finite doubles are whole numbers of a smallest unit, the least positive double.
A double keeps 53 bits, so a size of `n` units is rounded to a multiple of `2 ^ grain n`: up to
53 bits that is every whole number, and beyond them the grain doubles with each bit.
`nearestUnits` is the multiple nearest to a size, and of two nearest ones the even multiple.

Main statements:

* `nearestUnits_mono`: rounding keeps the order, also where the grain changes;
* `nearestUnits_of_short`: what fits into 53 bits is not rounded;
* `nearestUnits_near`: nothing is moved by more than half its grain.
-/

namespace QuadCode.Double

/-- The nearest whole number to a size, and of two nearest ones the even one. -/
def roundEven (x : ℚ) : ℕ :=
  if x - ⌊x⌋₊ < 1 / 2 then ⌊x⌋₊
  else if 1 / 2 < x - ⌊x⌋₊ then ⌊x⌋₊ + 1
  else ⌊x⌋₊ + ⌊x⌋₊ % 2

/-- How many of the lowest bits of a size a double does not keep. -/
def grain (n : ℕ) : ℕ :=
  n.log2 - 52

/-- The size in units that a double nearest to a given size has, if doubles had no upper bound. -/
def nearestUnits (x : ℚ) : ℕ :=
  roundEven (x / 2 ^ grain ⌊x⌋₊) * 2 ^ grain ⌊x⌋₊

theorem floor_le_roundEven (x : ℚ) : ⌊x⌋₊ ≤ roundEven x := by
  unfold roundEven
  split_ifs <;> omega

theorem roundEven_le_floor_succ (x : ℚ) : roundEven x ≤ ⌊x⌋₊ + 1 := by
  unfold roundEven
  split_ifs <;> omega

theorem roundEven_natCast (n : ℕ) : roundEven n = n := by
  rw [roundEven, Nat.floor_natCast, if_pos]
  norm_num

/-- What is rounded moves by half a step at most. -/
theorem roundEven_near {x : ℚ} (hx : 0 ≤ x) :
    (roundEven x : ℚ) ≤ x + 1 / 2 ∧ x ≤ roundEven x + 1 / 2 := by
  have hfloor := Nat.floor_le hx
  have hnext := Nat.lt_floor_add_one x
  unfold roundEven
  split_ifs with hless hmore
  · constructor <;> linarith
  · push_cast
    constructor <;> linarith
  · -- Halfway between two whole numbers, either of them is as near.
    have hhalf : x = ⌊x⌋₊ + 1 / 2 := by linarith
    rcases Nat.mod_two_eq_zero_or_one ⌊x⌋₊ with hbit | hbit <;> rw [hbit] <;> push_cast <;>
      constructor <;> linarith

/-- Halfway between two whole numbers, the even one is taken. -/
theorem roundEven_half (n : ℕ) : roundEven (n + 1 / 2) = n + n % 2 := by
  have hfloor : ⌊(n : ℚ) + 1 / 2⌋₊ = n := by
    rw [Nat.floor_eq_iff (by positivity)]
    constructor <;> linarith
  rw [roundEven, hfloor, if_neg (by linarith), if_neg (by linarith)]

theorem roundEven_mono {x y : ℚ} (h : x ≤ y) : roundEven x ≤ roundEven y := by
  rcases (Nat.floor_mono h).lt_or_eq with hlt | heq
  · calc
      roundEven x ≤ ⌊x⌋₊ + 1 := roundEven_le_floor_succ x
      _ ≤ ⌊y⌋₊ := hlt
      _ ≤ roundEven y := floor_le_roundEven y
  · by_cases hx : x - ⌊x⌋₊ < 1 / 2
    · rw [roundEven, if_pos hx, heq]
      exact floor_le_roundEven y
    · by_cases hy : 1 / 2 < y - ⌊y⌋₊
      · have hup : roundEven y = ⌊y⌋₊ + 1 := by
          rw [roundEven, if_neg (not_lt.mpr hy.le), if_pos hy]
        rw [hup, ← heq]
        exact roundEven_le_floor_succ x
      · -- Both lie halfway between the same two numbers.
        have hxy : x = y := by
          rw [heq] at hx
          linarith
        rw [hxy]

theorem roundEven_le {x : ℚ} {n : ℕ} (h : x ≤ n) : roundEven x ≤ n :=
  (roundEven_mono h).trans (roundEven_natCast n).le

theorem le_roundEven {x : ℚ} {n : ℕ} (h : (n : ℚ) ≤ x) : n ≤ roundEven x :=
  (roundEven_natCast n).ge.trans (roundEven_mono h)

/-- A size with 53 bits above its grain, or less if there is no grain. -/
theorem lt_two_pow_grain (n : ℕ) : n < 2 ^ (53 + grain n) := by
  have hlog : n.log2 + 1 ≤ 53 + grain n := by
    unfold grain
    omega
  exact Nat.lt_log2_self.trans_le (Nat.pow_le_pow_right Nat.two_pos hlog)

theorem two_pow_grain_le {n : ℕ} (h : 0 < grain n) : 2 ^ (52 + grain n) ≤ n := by
  have hlog : n.log2 = 52 + grain n := by
    unfold grain at h ⊢
    omega
  have hne : n ≠ 0 := by
    intro heq
    subst heq
    simp [grain] at h
  rw [← hlog]
  exact Nat.log2_self_le hne

/-- The grain of a size is known from the powers of two around it. -/
theorem grain_floor {x : ℚ} {g : ℕ} (hhigh : x < 2 ^ (53 + g)) (hlow : g = 0 ∨ 2 ^ (52 + g) ≤ x) :
    grain ⌊x⌋₊ = g := by
  have hhigh' : ⌊x⌋₊ < 2 ^ (53 + g) := (Nat.floor_lt' (by positivity)).mpr (by exact_mod_cast hhigh)
  by_cases hzero : ⌊x⌋₊ = 0
  · rcases hlow with rfl | hlow
    · rw [hzero]
      rfl
    · have hone : 1 ≤ ⌊x⌋₊ := Nat.floor_pos.mpr ((one_le_pow₀ (by norm_num)).trans hlow)
      omega
  · have hlog : (⌊x⌋₊).log2 < 53 + g := (Nat.log2_lt hzero).mpr hhigh'
    unfold grain
    rcases hlow with rfl | hlow
    · omega
    · have hlow' : 2 ^ (52 + g) ≤ ⌊x⌋₊ := Nat.le_floor (by exact_mod_cast hlow)
      have hlog' := (Nat.le_log2 hzero).mpr hlow'
      omega

/-- What is `y` in steps of `2 ^ g` is rounded to whole steps, if these are the steps of its size. -/
theorem nearestUnits_mul_two_pow {y : ℚ} {g : ℕ} (hhigh : y < 2 ^ 53)
    (hlow : g = 0 ∨ 2 ^ 52 ≤ y) : nearestUnits (y * 2 ^ g) = roundEven y * 2 ^ g := by
  have hgrain : grain ⌊y * 2 ^ g⌋₊ = g := by
    apply grain_floor
    · rw [pow_add]
      gcongr
    · refine hlow.imp_right fun hlow => ?_
      rw [pow_add]
      gcongr
  rw [nearestUnits, hgrain, mul_div_cancel_right₀ _ (by positivity)]

theorem grain_mono {m n : ℕ} (h : m ≤ n) : grain m ≤ grain n := by
  unfold grain
  rw [Nat.log2_eq_log_two, Nat.log2_eq_log_two]
  have := Nat.log_mono_right h (b := 2)
  omega

/-- Rounding keeps the order of sizes. -/
theorem nearestUnits_mono {x y : ℚ} (hx : 0 ≤ x) (h : x ≤ y) :
    nearestUnits x ≤ nearestUnits y := by
  unfold nearestUnits
  rcases (grain_mono (Nat.floor_mono h)).lt_or_eq with hlt | heq
  · -- A power of two lies between the two sizes, and no size is rounded across it.
    have hbelow : x ≤ 2 ^ (53 + grain ⌊x⌋₊) := by
      have hfloor := Nat.lt_floor_add_one x
      have hbits : ((⌊x⌋₊ + 1 : ℕ) : ℚ) ≤ (2 ^ (53 + grain ⌊x⌋₊) : ℕ) := by
        exact_mod_cast lt_two_pow_grain ⌊x⌋₊
      push_cast at hbits
      linarith
    have habove : 2 ^ (52 + grain ⌊y⌋₊) ≤ y := by
      have hfloor := Nat.floor_le (hx.trans h)
      have hbits : ((2 ^ (52 + grain ⌊y⌋₊) : ℕ) : ℚ) ≤ ⌊y⌋₊ := by
        exact_mod_cast two_pow_grain_le (by omega)
      push_cast at hbits
      linarith
    have hleft : roundEven (x / 2 ^ grain ⌊x⌋₊) ≤ 2 ^ 53 := by
      apply roundEven_le
      rwa [div_le_iff₀ (by positivity), Nat.cast_pow, Nat.cast_ofNat, ← pow_add]
    have hright : 2 ^ 52 ≤ roundEven (y / 2 ^ grain ⌊y⌋₊) := by
      apply le_roundEven
      rwa [le_div_iff₀ (by positivity), Nat.cast_pow, Nat.cast_ofNat, ← pow_add]
    calc
      roundEven (x / 2 ^ grain ⌊x⌋₊) * 2 ^ grain ⌊x⌋₊ ≤ 2 ^ 53 * 2 ^ grain ⌊x⌋₊ :=
        Nat.mul_le_mul_right _ hleft
      _ = 2 ^ 52 * 2 ^ (grain ⌊x⌋₊ + 1) := by ring
      _ ≤ 2 ^ 52 * 2 ^ grain ⌊y⌋₊ :=
        Nat.mul_le_mul_left _ (Nat.pow_le_pow_right Nat.two_pos hlt)
      _ ≤ roundEven (y / 2 ^ grain ⌊y⌋₊) * 2 ^ grain ⌊y⌋₊ := Nat.mul_le_mul_right _ hright
  · rw [heq]
    apply Nat.mul_le_mul_right
    apply roundEven_mono
    gcongr

/-- The grain of a size of at most 53 bits is no more than the places that it is moved up by. -/
theorem grain_mul_two_pow_le {m : ℕ} (k : ℕ) (h : m < 2 ^ 53) : grain (m * 2 ^ k) ≤ k := by
  rcases Nat.eq_zero_or_pos m with rfl | hpos
  · simp [grain]
  · have hlog : (m * 2 ^ k).log2 < 53 + k := by
      refine (Nat.log2_lt (by positivity)).mpr ?_
      rw [pow_add]
      exact Nat.mul_lt_mul_of_pos_right h (by positivity)
    unfold grain
    omega

/-- A size of at most 53 bits, moved up by any number of places, is not rounded. -/
theorem nearestUnits_of_short {m : ℕ} (k : ℕ) (h : m < 2 ^ 53) :
    nearestUnits ((m * 2 ^ k : ℕ) : ℚ) = m * 2 ^ k := by
  have hgrain := grain_mul_two_pow_le k h
  obtain ⟨d, hd⟩ := Nat.exists_eq_add_of_le hgrain
  have hwhole : ((m * 2 ^ k : ℕ) : ℚ) / 2 ^ grain (m * 2 ^ k) = (m * 2 ^ d : ℕ) := by
    rw [div_eq_iff (by positivity)]
    have hsplit : m * 2 ^ k = m * 2 ^ d * 2 ^ grain (m * 2 ^ k) := by
      conv_lhs => rw [hd]
      ring
    exact_mod_cast hsplit
  rw [nearestUnits, Nat.floor_natCast, hwhole, roundEven_natCast]
  conv_rhs => rw [hd]
  ring

/-- A whole size is moved by half its grain at most. -/
theorem nearestUnits_near (n : ℕ) :
    2 * nearestUnits n ≤ 2 * n + 2 ^ grain n ∧ 2 * n ≤ 2 * nearestUnits n + 2 ^ grain n := by
  rw [nearestUnits, Nat.floor_natCast]
  have hpos : (0 : ℚ) < 2 ^ grain n := by positivity
  obtain ⟨hhigh, hlow⟩ := roundEven_near (x := (n : ℚ) / 2 ^ grain n) (by positivity)
  have hsplit : (n : ℚ) = n / 2 ^ grain n * 2 ^ grain n := by field_simp
  have hhigh' := mul_le_mul_of_nonneg_right hhigh hpos.le
  have hlow' := mul_le_mul_of_nonneg_right hlow hpos.le
  rw [add_mul, ← hsplit] at hhigh' hlow'
  constructor
  · have : (2 * (roundEven (n / 2 ^ grain n) * 2 ^ grain n : ℕ) : ℚ) ≤ 2 * n + 2 ^ grain n := by
      push_cast
      linarith
    exact_mod_cast this
  · have : (2 * n : ℚ) ≤ 2 * (roundEven (n / 2 ^ grain n) * 2 ^ grain n : ℕ) + 2 ^ grain n := by
      push_cast
      linarith
    exact_mod_cast this

theorem nearestUnits_zero : nearestUnits 0 = 0 := by
  have h := nearestUnits_of_short 0 (m := 0) (by decide)
  rw [zero_mul] at h
  exact_mod_cast h

theorem nearestUnits_two_pow (k : ℕ) : nearestUnits (2 ^ k) = 2 ^ k := by
  have h := nearestUnits_of_short k (m := 1) (by decide)
  rw [one_mul] at h
  exact_mod_cast h

end QuadCode.Double
