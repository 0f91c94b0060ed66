import QuadCode.Proofs.Double.Rounding
import QuadCode.Proofs.Double.Units

/-!
# Rounding by shifts

An exact result is rounded by shifting its mantissa to the right until 53 bits are left, while two
bits keep track of what falls off.  `Stands` says which results such a mantissa with its two bits
stands for, and a shift keeps that true.  The number of bits that the shift leaves is the one that
the grain of the result asks for, so what is rounded in the end has `nearestUnits` units.

Main statements:

* `Stands.shiftRight` and `Stands.roundedMantissa`: what shifting and rounding a mantissa do;
* `rounded_roundWithAccuracy`: the rounded result has `nearestUnits` units;
* `rounded_normalize`: the same for an exact result of any length;
* `Rounded.holds`: it is a double if it is in range.
-/

namespace QuadCode.Double

open Float.Model
open Float.Model.UnpackedFloat (Sign Accuracy ExtendedMantissa)

/-- The fractions that an accuracy tells of. -/
def Tells : Accuracy → ℚ → Prop
  | .exact, f => f = 0
  | .inexact .lt, f => 0 < f ∧ f < 1 / 2
  | .inexact .eq, f => f = 1 / 2
  | .inexact .gt, f => 1 / 2 < f ∧ f < 1

/-- The results that a mantissa with its residual bits stands for. -/
def Stands (em : ExtendedMantissa) (x : ℚ) : Prop :=
  Tells em.accuracy (x - em.mantissa)

theorem Tells.bounds {a : Accuracy} {f : ℚ} (h : Tells a f) : 0 ≤ f ∧ f < 1 := by
  rcases a with _ | ⟨_ | _ | _⟩ <;> simp only [Tells] at h <;> constructor <;> linarith

theorem Tells.roundToNearestEven {a : Accuracy} {m : ℕ} {f : ℚ} (h : Tells a f) :
    a.roundToNearestEven m = roundEven (m + f) := by
  obtain ⟨hlow, hhigh⟩ := h.bounds
  have hfloor : ⌊(m : ℚ) + f⌋₊ = m := by
    rw [Nat.floor_eq_iff (by positivity)]
    constructor <;> linarith
  rw [roundEven, hfloor, add_sub_cancel_left]
  rcases a with _ | ⟨_ | _ | _⟩ <;> simp only [Tells] at h
  · rw [if_pos (by linarith)]
    rfl
  · rw [if_pos (by linarith)]
    rfl
  · rw [if_neg (by linarith), if_neg (by linarith)]
    rfl
  · rw [if_neg (by linarith), if_pos (by linarith)]
    rfl

theorem Stands.roundedMantissa {em : ExtendedMantissa} {x : ℚ} (h : Stands em x) :
    em.roundedMantissa = roundEven x := by
  have hround := Tells.roundToNearestEven (m := em.mantissa) h
  rwa [add_sub_cancel] at hround

theorem Stands.shiftRightOne {em : ExtendedMantissa} {x : ℚ} (h : Stands em x) :
    Stands em.shiftRightOne (x / 2) := by
  obtain ⟨m, round, sticky⟩ := em
  have hhalf : (m : ℚ) = 2 * (m / 2 : ℕ) + (m % 2 : ℕ) := by
    exact_mod_cast (Nat.div_add_mod m 2).symm
  unfold Stands ExtendedMantissa.shiftRightOne at *
  -- The last bit of the mantissa becomes the round bit, and both old bits become the sticky bit.
  rcases Nat.mod_two_eq_zero_or_one m with hbit | hbit
  · rw [hbit, Nat.cast_zero] at hhalf
    have hround : (m % 2 != 0) = false := by rw [hbit]; rfl
    cases round <;> cases sticky <;>
      simp only [hround, Bool.or_false, Bool.or_true, ExtendedMantissa.accuracy, Tells] at h ⊢ <;>
      first | linarith | exact ⟨by linarith, by linarith⟩
  · rw [hbit, Nat.cast_one] at hhalf
    have hround : (m % 2 != 0) = true := by rw [hbit]; rfl
    cases round <;> cases sticky <;>
      simp only [hround, Bool.or_false, Bool.or_true, ExtendedMantissa.accuracy, Tells] at h ⊢ <;>
      first | linarith | exact ⟨by linarith, by linarith⟩

theorem Stands.shiftRight {em : ExtendedMantissa} {x : ℚ} (h : Stands em x) (n : ℕ) :
    Stands (em >>> n) (x / 2 ^ n) := by
  change Stands (n.repeat ExtendedMantissa.shiftRightOne em) (x / 2 ^ n)
  induction n with
  | zero => simpa [Nat.repeat] using h
  | succ n ih =>
      rw [pow_succ, ← div_div]
      exact ih.shiftRightOne

theorem stands_ofMantissaAndAccuracy {m : ℕ} {a : Accuracy} {x : ℚ} (h : Tells a (x - m)) :
    Stands (ExtendedMantissa.ofMantissaAndAccuracy m a) x := by
  rcases a with _ | ⟨_ | _ | _⟩ <;> exact h

theorem mantissa_shiftRight (em : ExtendedMantissa) (n : ℕ) :
    (em >>> n).mantissa = em.mantissa / 2 ^ n := by
  change (n.repeat ExtendedMantissa.shiftRightOne em).mantissa = em.mantissa / 2 ^ n
  induction n with
  | zero => simp [Nat.repeat]
  | succ n ih =>
      rw [pow_succ, ← Nat.div_div_eq_div_mul, ← ih]
      rfl

theorem targetExponent_eq (m : ℕ) (e : ℤ) :
    Format.binary64.targetExponent (totalExponent m e) = max (m.log2 + e - 52) (-1074) := by
  have hmin : Format.binary64.minExponent = -1074 := rfl
  have hbits : (Format.binary64.mantissaBits : ℤ) = 53 := rfl
  unfold Format.targetExponent totalExponent
  omega

/-- A mantissa with enough bits is shifted until 53 bits are left, or to the least exponent. -/
theorem exists_shiftToTargetExponent {m : ℕ} {e : ℤ} (a : Accuracy)
    (h : 52 ≤ m.log2 ∨ e ≤ -1074) :
    ∃ n g : ℕ, UnpackedFloat.shiftToTargetExponent .binary64 m e a =
        (ExtendedMantissa.ofMantissaAndAccuracy m a >>> n, (g : ℤ) - 1074) ∧
      e + n = g - 1074 ∧ m < 2 ^ (53 + n) ∧ (g = 0 ∨ 2 ^ (52 + n) ≤ m) := by
  refine ⟨(max (m.log2 + e - 52) (-1074) - e).toNat, (max (m.log2 + e - 52) (-1074) + 1074).toNat,
    ?_, ?_, ?_, ?_⟩
  · unfold UnpackedFloat.shiftToTargetExponent UnpackedFloat.shiftToExponent
    rw [targetExponent_eq]
    refine Prod.ext rfl ?_
    dsimp only
    omega
  · omega
  · exact Nat.lt_log2_self.trans_le (Nat.pow_le_pow_right Nat.two_pos (by omega))
  · by_cases hleast : m.log2 + e - 52 ≤ -1074
    · exact Or.inl (by omega)
    · have hm : m ≠ 0 := by
        intro heq
        subst heq
        simp only [Nat.log2_zero] at h hleast
        omega
      exact Or.inr ((Nat.pow_le_pow_right Nat.two_pos (by omega)).trans (Nat.log2_self_le hm))

/-- The size of a mantissa at an exponent counted from the least one. -/
theorem size_sub (m g : ℕ) : size m (g - 1074) = m * 2 ^ g := by
  rw [size, sub_add_cancel, Int.toNat_natCast]

/-- A decoded double that has the given size. -/
def Holds (u : UnpackedFloat) (n : ℕ) : Prop :=
  Canonical u ∧ u.isFinite = true ∧ unitsOf u = n

theorem holds_finite {m g : ℕ} (hm : 0 < m) (hhigh : m < 2 ^ 53) (hlow : g = 0 ∨ 2 ^ 52 ≤ m)
    (hrange : m * 2 ^ g < beyond) : Holds (.finite .positive m (g - 1074) hm) (m * 2 ^ g) := by
  refine ⟨⟨hhigh, by omega, ?_, ?_⟩, rfl, congrArg Nat.cast (size_sub m g)⟩
  · by_contra hbig
    have hfull : 2 ^ 52 ≤ m := by omega
    have hpow : 2 ^ ((972 : ℤ) + 1074).toNat ≤ 2 ^ g := Nat.pow_le_pow_right Nat.two_pos (by omega)
    exact hrange.not_ge (Nat.mul_le_mul hfull hpow)
  · omega

/-- Rounding may make a mantissa of 54 bits.  The bit that is shifted out then is zero. -/
theorem exists_shiftToTargetExponent_rounded {r g : ℕ} (hr : r ≤ 2 ^ 53)
    (hlow : g = 0 ∨ 2 ^ 52 ≤ r) :
    ∃ (m : ExtendedMantissa) (g' : ℕ),
      UnpackedFloat.shiftToTargetExponent .binary64 r (g - 1074) .exact = (m, (g' : ℤ) - 1074) ∧
        m.mantissa * 2 ^ g' = r * 2 ^ g ∧ m.mantissa < 2 ^ 53 ∧ (g' = 0 ∨ 2 ^ 52 ≤ m.mantissa) := by
  have hbits : 52 ≤ r.log2 ∨ (g : ℤ) - 1074 ≤ -1074 := by
    rcases hlow with rfl | hlow
    · omega
    · exact Or.inl ((Nat.le_log2 (by omega)).mpr hlow)
  obtain ⟨n, g', hshift, hexp, hhigh', hlow'⟩ := exists_shiftToTargetExponent .exact hbits
  refine ⟨_, g', hshift, ?_⟩
  rw [mantissa_shiftRight]
  change r / 2 ^ n * 2 ^ g' = r * 2 ^ g ∧ r / 2 ^ n < 2 ^ 53 ∧ (g' = 0 ∨ 2 ^ 52 ≤ r / 2 ^ n)
  have hsum : g' = n + g := by omega
  have hshort : n = 0 ∨ n = 1 ∧ r = 2 ^ 53 := by
    rcases hlow' with rfl | hlow'
    · omega
    · have hpow : 52 + n ≤ 53 := (Nat.pow_le_pow_iff_right (by decide)).mp (hlow'.trans hr)
      rcases Nat.eq_zero_or_pos n with hn | hn
      · exact Or.inl hn
      · have hn1 : n = 1 := by omega
        subst hn1
        exact Or.inr ⟨rfl, by omega⟩
  rcases hshort with rfl | ⟨rfl, rfl⟩
  · rw [pow_zero, Nat.div_one, hsum, Nat.zero_add]
    exact ⟨rfl, hhigh', by omega⟩
  · refine ⟨?_, by decide, Or.inr (by decide)⟩
    rw [hsum, pow_add]
    omega

theorem div_two_pow_lt {m n : ℕ} {x : ℚ} (hx : x < m + 1) (hm : m < 2 ^ (53 + n)) :
    x / 2 ^ n < 2 ^ 53 := by
  rw [div_lt_iff₀ (by positivity), ← pow_add]
  have hnext : ((m + 1 : ℕ) : ℚ) ≤ (2 ^ (53 + n) : ℕ) := by exact_mod_cast hm
  push_cast at hnext
  linarith

theorem le_div_two_pow {m n : ℕ} {x : ℚ} (hx : m ≤ x) (hm : 2 ^ (52 + n) ≤ m) :
    2 ^ 52 ≤ x / 2 ^ n := by
  rw [le_div_iff₀ (by positivity), ← pow_add]
  have hfull : ((2 ^ (52 + n) : ℕ) : ℚ) ≤ m := by exact_mod_cast hm
  push_cast at hfull
  linarith

/-- A decoded result of a size, which may have too great an exponent for a double. -/
def Rounded (u : UnpackedFloat) (n : ℕ) : Prop :=
  (∃ s, u = .zero s) ∧ n = 0 ∨
    ∃ (m g : ℕ) (hm : 0 < m), u = .finite .positive m (g - 1074) hm ∧ n = m * 2 ^ g ∧
      m < 2 ^ 53 ∧ (g = 0 ∨ 2 ^ 52 ≤ m)

/-- A result in range is a double. -/
theorem Rounded.holds {u : UnpackedFloat} {n : ℕ} (h : Rounded u n) (hrange : n < beyond) :
    Holds u n := by
  rcases h with ⟨⟨s, rfl⟩, rfl⟩ | ⟨m, g, hm, rfl, rfl, hhigh, hlow⟩
  · exact ⟨trivial, rfl, rfl⟩
  · exact holds_finite hm hhigh hlow hrange

/-- **Rounding.**  A mantissa and an accuracy that stand for `x` are rounded to `nearestUnits` of
what `x` is at that exponent, if the mantissa has enough bits to be rounded. -/
theorem rounded_roundWithAccuracy {m : ℕ} {e : ℤ} {a : Accuracy} {x : ℚ} (hx : Tells a (x - m))
    (hbits : 52 ≤ m.log2 ∨ e ≤ -1074) :
    Rounded (UnpackedFloat.roundWithAccuracy .binary64 .positive m e a)
      (nearestUnits (x * 2 ^ (e + 1074))) := by
  obtain ⟨n, g, hfirst, hexp, hshort, hfull⟩ := exists_shiftToTargetExponent a hbits
  obtain ⟨hfrac, hfrac'⟩ := hx.bounds
  have hhigh : x / 2 ^ n < 2 ^ 53 := div_two_pow_lt (by linarith) hshort
  have hlow : g = 0 ∨ 2 ^ 52 ≤ x / 2 ^ n :=
    hfull.imp_right fun hfull => le_div_two_pow (by linarith) hfull
  have hscale : x * 2 ^ (e + 1074) = x / 2 ^ n * 2 ^ g := by
    have hsplit : e + 1074 = (g : ℤ) - n := by omega
    rw [hsplit, zpow_sub₀ (by norm_num), zpow_natCast, zpow_natCast]
    ring
  have hnearest : nearestUnits (x * 2 ^ (e + 1074)) = roundEven (x / 2 ^ n) * 2 ^ g := by
    rw [hscale, nearestUnits_mul_two_pow hhigh hlow]
  obtain ⟨m', g', hsecond, hsame, hhigh', hlow'⟩ :=
    exists_shiftToTargetExponent_rounded (r := roundEven (x / 2 ^ n)) (g := g)
      (roundEven_le (by exact_mod_cast hhigh.le))
      (hlow.imp_right fun hlow => le_roundEven (by exact_mod_cast hlow))
  rw [hnearest, ← hsame]
  have hstands := (stands_ofMantissaAndAccuracy hx).shiftRight n
  unfold UnpackedFloat.roundWithAccuracy
  rw [hfirst]
  dsimp only
  rw [hstands.roundedMantissa, hsecond]
  dsimp only
  split
  · next hzero =>
    rw [hzero, zero_mul]
    exact Or.inl ⟨⟨.positive, rfl⟩, rfl⟩
  · next hpos => exact Or.inr ⟨_, g', Nat.pos_of_ne_zero hpos, rfl, rfl, hhigh', hlow'⟩

theorem two_pow_le_mul_two_pow {m j k : ℕ} (hm : 0 < m) (h : j ≤ m.log2 + k) :
    2 ^ j ≤ m * 2 ^ k := by
  calc
    2 ^ j ≤ 2 ^ (m.log2 + k) := Nat.pow_le_pow_right Nat.two_pos h
    _ = 2 ^ m.log2 * 2 ^ k := pow_add 2 m.log2 k
    _ ≤ m * 2 ^ k := Nat.mul_le_mul_right _ (Nat.log2_self_le hm.ne')

theorem rounded_round {m : ℕ} {e : ℤ} (hm : 0 < m) :
    Rounded (UnpackedFloat.round .binary64 .positive m e)
      (nearestUnits (m * 2 ^ (e + 1074))) := by
  unfold UnpackedFloat.round UnpackedFloat.decreaseExponent
  rw [targetExponent_eq]
  dsimp only
  generalize hk : (e - max (m.log2 + e - 52) (-1074)).toNat = k
  have hscale : ((m <<< k : ℕ) : ℚ) * 2 ^ (e - k + 1074) = m * 2 ^ (e + 1074) := by
    have hsplit : e + 1074 = k + (e - k + 1074) := by omega
    rw [Nat.shiftLeft_eq, hsplit, zpow_add₀ (by norm_num) (k : ℤ), zpow_natCast, Nat.cast_mul,
      Nat.cast_pow, Nat.cast_ofNat, mul_assoc]
  have hbits : 52 ≤ (m <<< k).log2 ∨ e - k ≤ -1074 := by
    by_cases hleast : e - k ≤ -1074
    · exact Or.inr hleast
    · have hfull : 2 ^ 52 ≤ m * 2 ^ k := two_pow_le_mul_two_pow hm (by omega)
      rw [Nat.shiftLeft_eq]
      exact Or.inl ((Nat.le_log2 (by omega)).mpr hfull)
  rw [← hscale]
  exact rounded_roundWithAccuracy (sub_self _) hbits

theorem cast_size {m : ℕ} {e : ℤ} (h : -1074 ≤ e) : (size m e : ℚ) = m * 2 ^ (e + 1074) := by
  have hnonneg : e + 1074 = ((e + 1074).toNat : ℤ) := by omega
  conv_rhs => rw [hnonneg]
  rw [size, zpow_natCast]
  push_cast
  rfl

/-- An exact result is rounded to `nearestUnits` of it. -/
theorem rounded_normalize {n : ℕ} {e : ℤ} (h : -1074 ≤ e) :
    Rounded (UnpackedFloat.normalize .binary64 n e .positive) (nearestUnits (size n e)) := by
  unfold UnpackedFloat.normalize
  rcases Nat.eq_zero_or_pos n with rfl | hpos
  · have hzero : nearestUnits (size 0 e) = 0 := by
      rw [size, zero_mul, Nat.cast_zero, nearestUnits_zero]
    rw [hzero]
    exact Or.inl ⟨⟨.positive, rfl⟩, rfl⟩
  · have hgt : compare (n : ℤ) 0 = .gt := compare_gt_iff_gt.mpr (by exact_mod_cast hpos)
    rw [hgt, cast_size h]
    exact rounded_round hpos

end QuadCode.Double
