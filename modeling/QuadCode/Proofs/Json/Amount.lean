import QuadCode.Json.Amount
import QuadCode.Proofs.Decimal.Layout
import QuadCode.Proofs.Decimal.Rounding
import QuadCode.Proofs.Double.Whole
import QuadCode.Proofs.Json.Text

/-!
# Amounts that are read as they were written

A numeral is read in two steps, both of which may round: its digits become a double, and that double
is moved by a power of ten.  With few enough digits and a small enough power there is only one
rounding left.  The digits and the power are doubles themselves then, and the result is the double
nearest to what the numeral denotes.  That is the double that the numeral was written for.

Main statements:

* `Numeral.amount?_eq`: how a numeral of few digits is read;
* `timesPowerOfTen_ofNat`: moving a whole number by a small power of ten is exact but for rounding;
* `Json.readsBack_of_short`: an amount with a short numeral is read as it was written.
-/

namespace QuadCode

open Double

/-! ## Gathering digits -/

/-- Digits that fit are all taken. -/
theorem gatherDigits_of_lt {ds : Digits} {n : ℕ} (h : n * 10 ^ ds.length + ds.value < UInt64.size) :
    gatherDigits n ds = (n * 10 ^ ds.length + ds.value, 0) := by
  rw [← Digits.foldl_value] at h ⊢
  induction ds generalizing n with
  | nil => rfl
  | cons d rest ih =>
      rw [List.foldl_cons] at h ⊢
      have hfits : 10 * n + d.val < UInt64.size := by
        refine Nat.lt_of_le_of_lt ?_ h
        rw [Digits.foldl_value]
        exact Nat.le_add_right_of_le (Nat.le_mul_of_pos_right _ (Nat.pow_pos (by decide)))
      rw [gatherDigits, if_pos hfits, ih h]

/-- How a numeral of few digits is read. -/
theorem Numeral.amount?_eq {n : Numeral} (h : n.coefficient < UInt64.size) :
    n.amount? = (timesPowerOfTen (Float.ofNat n.coefficient) n.exponent).map fun size =>
      if n.negative then -size else size := by
  rw [coefficient, Digits.value_append] at h
  have hwhole : gatherDigits 0 n.whole = (n.whole.value, 0) := by
    have hfits : 0 * 10 ^ n.whole.length + n.whole.value < UInt64.size := by
      rw [Nat.zero_mul, Nat.zero_add]
      refine Nat.lt_of_le_of_lt ?_ h
      exact Nat.le_add_right_of_le (Nat.le_mul_of_pos_right _ (Nat.pow_pos (by decide)))
    rw [gatherDigits_of_lt hfits, Nat.zero_mul, Nat.zero_add]
  rw [amount?, coefficient, Digits.value_append, exponent]
  simp only [hwhole, gatherDigits_of_lt h]
  congr 2
  omega

/-! ## Powers of ten -/

/-- The powers of ten that are doubles. -/
theorem counts_powerOfTen {k : ℕ} (h : k ≤ 22) : Counts (powerOfTen k) (10 ^ k * 2 ^ 1074) := by
  have hall : ∀ k < 23, (powerOfTen k).isFinite = true ∧
      units (powerOfTen k) = (10 ^ k * 2 ^ 1074 : ℕ) := by decide +kernel
  exact hall k (Nat.lt_succ_iff.mpr h)

theorem nearestUnits_lt_beyond {c : ℕ} {k : ℤ} (hc : c < 2 ^ 53) (hk : k ≤ 22) :
    nearestUnits (c * 10 ^ k * 2 ^ 1074) < beyond := by
  have hnonneg : (0 : ℚ) ≤ c * 10 ^ k := by positivity
  have hsize : (c : ℚ) * 10 ^ k ≤ 2 ^ 127 := by
    calc
      (c : ℚ) * 10 ^ k ≤ 2 ^ 53 * 10 ^ (22 : ℤ) := by
        gcongr
        · exact_mod_cast hc.le
        · norm_num
      _ ≤ 2 ^ 127 := by norm_num
  have hunits : (c : ℚ) * 10 ^ k * 2 ^ 1074 ≤ 2 ^ (127 + 1074) := by
    rw [pow_add]
    exact mul_le_mul_of_nonneg_right hsize (pow_nonneg zero_le_two _)
  calc
    nearestUnits (c * 10 ^ k * 2 ^ 1074) ≤ nearestUnits (2 ^ (127 + 1074)) :=
      nearestUnits_mono (mul_nonneg hnonneg (pow_nonneg zero_le_two _)) hunits
    _ = 2 ^ (127 + 1074) := nearestUnits_two_pow (127 + 1074)
    _ < beyond := two_pow_lt_beyond (k := 127 + 1074) (by decide)

/-- **A whole number times a small power of ten** is rounded once. -/
theorem timesPowerOfTen_ofNat {c : ℕ} {k : ℤ} (hc : c < 2 ^ 53) (hk : k.natAbs ≤ 22) :
    ∃ y, timesPowerOfTen (Float.ofNat c) k = some y ∧
      Counts y (nearestUnits (c * 10 ^ k * 2 ^ 1074)) := by
  have hrange := nearestUnits_lt_beyond hc (show k ≤ 22 by omega)
  have hcount := counts_ofNat hc
  have hpower := counts_powerOfTen hk
  rw [timesPowerOfTen, if_pos (show k.natAbs ≤ greatestPower from hk.trans (by decide))]
  by_cases hwhole : 0 ≤ k
  · have hexact : ((c * 2 ^ 1074 : ℕ) : ℚ) * (10 ^ k.natAbs * 2 ^ 1074 : ℕ) / 2 ^ 1074 =
        c * 10 ^ k * 2 ^ 1074 := by
      obtain ⟨j, rfl⟩ := Int.eq_ofNat_of_zero_le hwhole
      rw [Nat.cast_mul, Nat.cast_mul, Nat.cast_pow, Nat.cast_pow, Nat.cast_ofNat, Nat.cast_ofNat,
        zpow_natCast, Int.natAbs_natCast, ← mul_assoc,
        mul_div_cancel_right₀ _ (pow_ne_zero _ two_ne_zero), mul_right_comm]
    have hproduct := hcount.mul hpower
    rw [hexact] at hproduct
    have hy := hproduct hrange
    rw [if_pos hwhole]
    dsimp only
    rw [isInf_of_finite hy.1]
    exact ⟨_, rfl, hy⟩
  · have hexact : ((c * 2 ^ 1074 : ℕ) : ℚ) / (10 ^ k.natAbs * 2 ^ 1074 : ℕ) * 2 ^ 1074 =
        c * 10 ^ k * 2 ^ 1074 := by
      obtain ⟨j, rfl⟩ : ∃ j : ℕ, k = -j := ⟨k.natAbs, by omega⟩
      rw [Nat.cast_mul, Nat.cast_mul, Nat.cast_pow, Nat.cast_pow, Nat.cast_ofNat, Nat.cast_ofNat,
        zpow_neg, zpow_natCast, Int.natAbs_neg, Int.natAbs_natCast,
        mul_div_mul_right _ _ (pow_ne_zero _ two_ne_zero), div_eq_mul_inv]
    have hquotient := hcount.div hpower (by positivity)
    rw [hexact] at hquotient
    rw [if_neg hwhole]
    exact ⟨_, rfl, hquotient hrange⟩

/-! ## Amounts -/

namespace Json

theorem wellFormed_ofFloat (x : Float) : (ofFloat x).WellFormed := by
  rw [ofFloat]
  split
  · exact wellFormed_number_iff.mpr (layout.wellFormed_numeral x)
  · rw [WellFormed, lexemes, List.forall_mem_singleton]
    trivial

/-- An amount that is no finite number is written as null, and null is no amount. -/
theorem amount?_ofFloat_of_not_finite {x : Float} (h : x.isFinite = false) :
    (ofFloat x).amount? = none := by
  rw [ofFloat, h]
  rfl

/-- An amount that is read as it is written. -/
def ReadsBack (x : Float) : Prop :=
  (ofFloat x).amount? = some x

instance (x : Float) : Decidable (ReadsBack x) :=
  inferInstanceAs (Decidable (_ = _))

/-- The two zeros are read as they are written. -/
theorem readsBack_of_zero {x : Float} (hfin : x.isFinite = true)
    (h : (Binary64.ofFloat x).mantissa = 0) : ReadsBack x := by
  have hbits : Binary64.ofFloat x = Binary64.ofFloat 0.0 := by
    rcases unpack_eq hfin with ⟨-, hzero⟩ | ⟨hpos, -⟩
    · exact hzero
    · exact absurd h hpos.ne'
  cases hsign : signBit x with
  | false =>
      rw [eq_of_ofFloat (y := 0.0) hbits hsign]
      decide +kernel
  | true =>
      rw [eq_of_ofFloat (y := -0.0) (hbits.trans (by decide +kernel)) (hsign.trans (by decide +kernel))]
      decide +kernel

/-- **An amount with a short numeral is read as it was written.** -/
theorem readsBack_of_short {x : Float} (hfin : x.isFinite = true)
    (hdigits : (layout.numeral x).coefficient < 2 ^ 53)
    (hpower : (layout.numeral x).exponent.natAbs ≤ 22) : ReadsBack x := by
  by_cases hzero : (Binary64.ofFloat x).mantissa = 0
  · exact readsBack_of_zero hfin hzero
  have hcanonical := canonical_ofFloat hfin
  -- What is read is nearest to the shortest decimal, and so is the amount.
  obtain ⟨y, hread, hy⟩ := timesPowerOfTen_ofNat hdigits hpower
  have hnearest : nearestUnits ((layout.numeral x).size * 2 ^ 1074) =
      size (Binary64.ofFloat x).mantissa (Binary64.ofFloat x).exponent := by
    rw [layout.size_numeral (by decide)]
    exact Binary64.nearestUnits_of_admits hcanonical hzero
      (Binary64.admits_shortest hcanonical hzero layout.tie)
  rw [Numeral.size] at hnearest
  rw [hnearest] at hy
  have hpos := size_pos (e := (Binary64.ofFloat x).exponent) (Nat.pos_of_ne_zero hzero)
  have hunits := units_eq hfin
  have hne : units x ≠ 0 := by
    rw [hunits]
    split <;> omega
  have hsame : (if signBit x then -y else y) = x := by
    cases hsign : signBit x with
    | false =>
        rw [hsign] at hunits
        exact (eq_of_units hfin hy.1 (hunits.trans hy.2.symm) hne).symm
    | true =>
        obtain ⟨hneg, hnegUnits⟩ := units_neg hy.1
        rw [hsign] at hunits
        rw [hy.2] at hnegUnits
        exact (eq_of_units hfin hneg (hunits.trans hnegUnits.symm) hne).symm
  rw [ReadsBack, ofFloat, if_pos hfin, amount?, Numeral.amount?_eq (hdigits.trans (by decide)),
    hread, layout.negative_numeral, Option.map_some, hsame]

-- The seventeen digits of the second amount are one too many.
example : ReadsBack 0.1 ∧ ¬ ReadsBack 100.00000000000001 := by
  decide +kernel

end Json

end QuadCode
