import QuadCode.Decimal.Layout
import QuadCode.Proofs.Decimal.Shortest
import QuadCode.Proofs.Json.Numeral

/-!
# The numerals of amounts

However an amount is laid out, its numeral is well formed: the digits of the shortest decimal have
no zero in front, unless the amount is zero, and where they do not reach the point they are filled
up with one zero in front of it.  And however it is laid out, its numeral denotes the same number:
zeros behind the digits are made good by the exponent, and so are digits behind the point.

Main statements:

* `Layout.wellFormed_numeral`: the numeral of an amount is well formed;
* `Layout.size_numeral`: it denotes the shortest decimal.
-/

namespace QuadCode

/-- The number that a numeral denotes, apart from its sign. -/
def Numeral.size (n : Numeral) : ℚ :=
  n.coefficient * 10 ^ n.exponent

/-- The number that a decimal is. -/
def Decimal.size (d : Decimal) : ℚ :=
  d.coefficient * 10 ^ d.exponent

namespace Layout

variable {n : ℕ} {exponent : ℤ}

/-- Digits written out in full. -/
theorem wellFormed_writtenOut (l : Layout) (negative : Bool) (hzero : n = 0 → exponent = 0) :
    (l.writtenOut negative (Digits.ofNat n) exponent).WellFormed := by
  have hdigits : 0 < (Digits.ofNat n).length := List.length_pos_iff.mpr (Digits.ofNat_ne_nil n)
  unfold writtenOut
  dsimp only
  split
  · next hwhole =>
      refine ⟨by simp [Digits.ofNat_ne_nil], ?_, ?_, by simp⟩
      · -- Zeros are put behind other digits only.
        intro more hmore
        obtain ⟨d, ds, hds⟩ := List.exists_cons_of_ne_nil (Digits.ofNat_ne_nil n)
        rw [hds, List.cons_append, List.cons.injEq] at hmore
        obtain ⟨rfl, hmore⟩ := hmore
        obtain ⟨hn, rfl⟩ := Digits.ofNat_eq_zero_cons hds
        rw [← hmore, hzero hn]
        rfl
      · cases l.keepsFraction <;> simp
  · next hsmall =>
      have hplaces : 0 < (-exponent).toNat := by omega
      generalize (-exponent).toNat = places at hplaces
      refine ⟨?_, ?_, ?_, by simp⟩
      · refine List.ne_nil_of_length_pos ?_
        simp only [List.length_take, List.length_append, List.length_replicate]
        omega
      · intro more hmore
        by_cases hfew : (Digits.ofNat n).length ≤ places
        · -- Only one zero stands in front of the point.
          have hlength := congrArg List.length hmore
          simp only [List.length_take, List.length_append, List.length_replicate,
            List.length_cons] at hlength
          exact List.eq_nil_of_length_eq_zero (by omega)
        · -- The digits reach the point, and none is put in front of them.
          have hnone : places + 1 - (Digits.ofNat n).length = 0 := by omega
          dsimp only at hmore
          rw [hnone, List.replicate_zero, List.nil_append] at hmore
          obtain ⟨behind, hall⟩ := List.take_prefix ((Digits.ofNat n).length - places)
            (Digits.ofNat n)
          rw [hmore, List.cons_append] at hall
          obtain ⟨-, hnil⟩ := Digits.ofNat_eq_zero_cons hall.symm
          exact (List.append_eq_nil_iff.mp hnil).1
      · intro hempty
        have hlength := congrArg List.length (Option.some.inj hempty)
        simp only [List.length_drop, List.length_append, List.length_replicate,
          List.length_nil] at hlength
        omega

/-- Digits with a power of ten. -/
theorem wellFormed_withPower (l : Layout) (negative : Bool) (n : ℕ) (leading : ℤ) :
    (l.withPower negative (Digits.ofNat n) leading).WellFormed := by
  obtain ⟨d, ds, hds⟩ := List.exists_cons_of_ne_nil (Digits.ofNat_ne_nil n)
  rw [withPower, hds]
  refine ⟨by simp, ?_, ?_, ?_⟩
  · intro more hmore
    exact (List.cons.inj hmore).2.symm
  · cases ds <;> simp
  · intro p hp
    obtain rfl := Option.some.inj hp
    exact Digits.ofNat_ne_nil _

/-- **The numeral of an amount** is well formed. -/
theorem wellFormed_numeral (l : Layout) (x : Float) : (l.numeral x).WellFormed := by
  unfold numeral
  split
  · exact l.wellFormed_writtenOut _ Binary64.exponent_shortest_of_zero
  · dsimp only
    split
    · exact l.wellFormed_writtenOut _ Binary64.exponent_shortest_of_zero
    · exact l.wellFormed_withPower _ _ _

/-! ## The number that a numeral denotes -/

theorem size_writtenOut (l : Layout) (negative : Bool) (ds : Digits) (exponent : ℤ) :
    (l.writtenOut negative ds exponent).size = ds.value * 10 ^ exponent := by
  unfold writtenOut
  dsimp only
  split
  · next hwhole =>
      obtain ⟨k, rfl⟩ := Int.eq_ofNat_of_zero_le hwhole
      have hzero : Digits.value [0] = 0 := rfl
      have hten : (10 : ℚ) ^ (k + 1) * 10⁻¹ = 10 ^ k := by
        rw [pow_succ, mul_assoc, mul_inv_cancel₀ (by norm_num), mul_one]
      cases l.keepsFraction <;>
        simp [Numeral.size, Numeral.coefficient, Numeral.exponent, Digits.value_append,
          Digits.value_replicate_zero, hzero, mul_assoc, hten]
  · next hpart =>
      simp only [Numeral.size, Numeral.coefficient, Numeral.exponent, Option.getD_some,
        List.take_append_drop, Digits.value_append, Digits.value_replicate_zero, zero_mul, zero_add,
        Option.map_none, Option.getD_none, List.length_drop, List.length_append,
        List.length_replicate]
      congr 2
      omega

theorem size_withPower (l : Layout) (hsign : l.powerSign ≠ .minus) (negative : Bool) {ds : Digits}
    (hds : ds ≠ []) (leading : ℤ) :
    (l.withPower negative ds leading).size = ds.value * 10 ^ (leading + 1 - ds.length) := by
  have hpower : (⟨if leading < 0 then .minus else l.powerSign,
      Digits.ofNat leading.natAbs⟩ : Power).value = leading := by
    unfold Power.value
    by_cases hneg : leading < 0
    · simp only [if_pos hneg, Digits.value_ofNat]
      omega
    · simp only [if_neg hneg, Digits.value_ofNat]
      omega
  obtain ⟨d, rest, rfl⟩ := List.exists_cons_of_ne_nil hds
  simp only [Numeral.size, Numeral.coefficient, Numeral.exponent, withPower, Option.map_some,
    Option.getD_some, hpower]
  cases rest with
  | nil => simp
  | cons d' rest => simp

/-- **The numeral of an amount denotes its shortest decimal.** -/
theorem size_numeral (l : Layout) (hsign : l.powerSign ≠ .minus) (x : Float) :
    (l.numeral x).size = ((Binary64.ofFloat x).shortest l.tie).size := by
  have hinFull := l.size_writtenOut (signBit x)
    (Digits.ofNat ((Binary64.ofFloat x).shortest l.tie).coefficient)
    ((Binary64.ofFloat x).shortest l.tie).exponent
  rw [Digits.value_ofNat] at hinFull
  unfold numeral
  split
  · exact hinFull
  · dsimp only
    split
    · exact hinFull
    · rw [l.size_withPower hsign _ (Digits.ofNat_ne_nil _), Digits.value_ofNat, Decimal.size]
      congr 2
      omega

theorem negative_numeral (l : Layout) (x : Float) : (l.numeral x).negative = signBit x := by
  have hinFull (ds : Digits) (exponent : ℤ) :
      (l.writtenOut (signBit x) ds exponent).negative = signBit x := by
    unfold writtenOut
    dsimp only
    split <;> rfl
  unfold numeral
  split
  · exact hinFull _ _
  · dsimp only
    split
    · exact hinFull _ _
    · rfl

end Layout

end QuadCode
