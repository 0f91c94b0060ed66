import QuadCode.Decimal.Binary64
import QuadCode.Proofs.Double.Products

/-!
# Doubles and their bits

The texts of amounts are made from the bits of a double: its sign, its exponent and its mantissa.
They say the same as its units, and together they are the whole double.  So two doubles with the same
number of units are the same double, unless they are zeros of different signs.

Main statements:

* `unpack_eq`: a finite double is decoded from its sign, its mantissa and its exponent;
* `canonical_ofFloat`: the form of its mantissa and its exponent;
* `eq_of_units`: doubles of the same units are the same, unless they are zeros.
-/

namespace QuadCode

/-- The form of the size of a finite double: its mantissa has 53 bits, or fewer at the least
exponent. -/
structure Binary64.Canonical (b : Binary64) : Prop where
  short : b.mantissa < 2 ^ 53
  low : -1074 ≤ b.exponent
  high : b.exponent ≤ 971
  full : 2 ^ 52 ≤ b.mantissa ∨ b.exponent = -1074

namespace Double

open Float.Model
open Float.Model.UnpackedFloat (Sign)

variable {x y : Float}

theorem toNat_unpackExponent (v : BitVec 64) :
    (@UnpackedFloat.unpackExponent .binary64 v).toNat = v.toNat / 2 ^ 52 % 2048 := by
  unfold UnpackedFloat.unpackExponent
  rw [BitVec.toNat_cast, BitVec.extractLsb_toNat, Nat.shiftRight_eq_div_pow]
  rfl

theorem toNat_unpackMantissa (v : BitVec 64) :
    (@UnpackedFloat.unpackMantissa .binary64 v).toNat = v.toNat % 2 ^ 52 := by
  unfold UnpackedFloat.unpackMantissa
  rw [BitVec.toNat_cast, BitVec.extractLsb_toNat, Nat.shiftRight_zero]
  rfl

theorem toNat_unpackSign (v : BitVec 64) :
    (@UnpackedFloat.unpackSign .binary64 v).toNat = v.toNat / 2 ^ 63 := by
  have hshort := v.isLt
  unfold UnpackedFloat.unpackSign
  rw [BitVec.toNat_cast, BitVec.extractLsb_toNat, Nat.shiftRight_eq_div_pow]
  change v.toNat / 2 ^ 63 % 2 = v.toNat / 2 ^ 63
  omega

/-- The sign of a double, zeros included. -/
def signOf (x : Float) : Sign :=
  if signBit x then .negative else .positive

theorem ofBitVec_unpackSign (x : Float) :
    Sign.ofBitVec (@UnpackedFloat.unpackSign .binary64 x.toModel.toBits.toBitVec) = signOf x := by
  have hsign := toNat_unpackSign x.toModel.toBits.toBitVec
  have hbits : signBit x = decide (2 ^ 63 ≤ x.toModel.toBits.toBitVec.toNat) := rfl
  rw [signOf, hbits, Sign.ofBitVec]
  generalize @UnpackedFloat.unpackSign .binary64 x.toModel.toBits.toBitVec = sign at hsign
  by_cases hhigh : 2 ^ 63 ≤ x.toModel.toBits.toBitVec.toNat
  · have hone : sign ≠ 0#1 := by
      rintro rfl
      change 0 = _ at hsign
      omega
    rw [if_neg hone, if_pos (decide_eq_true hhigh)]
  · have hzero : sign = 0#1 := BitVec.eq_of_toNat_eq (by rw [hsign]; change _ = 0; omega)
    rw [if_pos hzero, decide_eq_false hhigh]
    rfl

/-- **A finite double is decoded from its sign, its mantissa and its exponent.** -/
theorem unpack_eq (hfin : x.isFinite = true) :
    (x.toModel.unpack = .zero (signOf x) ∧ Binary64.ofFloat x = ⟨0, -1074⟩) ∨
      ∃ hm, x.toModel.unpack =
        .finite (signOf x) (Binary64.ofFloat x).mantissa (Binary64.ofFloat x).exponent hm := by
  have he := toNat_unpackExponent x.toModel.toBits.toBitVec
  have hm := toNat_unpackMantissa x.toModel.toBits.toBitVec
  have happend := toNat_one_append
    (@UnpackedFloat.unpackMantissa .binary64 x.toModel.toBits.toBitVec)
  have hbias : Format.binary64.exponentBias = 1023 := rfl
  have hbits : Binary64.ofFloat x =
      if x.toModel.toBits.toBitVec.toNat / 2 ^ 52 % 2048 = 0 then
        ⟨x.toModel.toBits.toBitVec.toNat % 2 ^ 52, -1074⟩
      else ⟨x.toModel.toBits.toBitVec.toNat % 2 ^ 52 + 2 ^ 52,
        (x.toModel.toBits.toBitVec.toNat / 2 ^ 52 % 2048 : ℕ) - 1075⟩ := rfl
  rw [← he, ← hm] at hbits
  change x.toModel.unpack.isFinite = true at hfin
  unfold Float.Model.unpack UnpackedFloat.unpack at hfin ⊢
  dsimp only at hfin ⊢
  rw [ofBitVec_unpackSign] at hfin ⊢
  by_cases hinfinite :
    @UnpackedFloat.unpackExponent .binary64 x.toModel.toBits.toBitVec = -1#11
  · rw [if_pos hinfinite] at hfin
    split at hfin <;> cases hfin
  rw [if_neg hinfinite]
  by_cases hleast : @UnpackedFloat.unpackExponent .binary64 x.toModel.toBits.toBitVec = 0#11
  · rw [if_pos hleast]
    have hzero : (@UnpackedFloat.unpackExponent .binary64 x.toModel.toBits.toBitVec).toNat = 0 :=
      congrArg BitVec.toNat hleast
    rw [if_pos hzero] at hbits
    by_cases hnone : @UnpackedFloat.unpackMantissa .binary64 x.toModel.toBits.toBitVec = 0#52
    · rw [dif_pos hnone, hbits, hnone]
      exact Or.inl ⟨rfl, rfl⟩
    · rw [dif_neg hnone]
      right
      simp only [hbits, UnpackedFloat.finite.injEq, hzero]
      exact ⟨Nat.pos_of_ne_zero fun hall => hnone (BitVec.eq_of_toNat_eq hall), trivial, trivial, rfl⟩
  · rw [if_neg hleast]
    have hpos : (@UnpackedFloat.unpackExponent .binary64 x.toModel.toBits.toBitVec).toNat ≠ 0 :=
      fun hzero => hleast (BitVec.eq_of_toNat_eq hzero)
    rw [if_neg hpos] at hbits
    right
    simp only [hbits, UnpackedFloat.finite.injEq]
    exact ⟨by omega, trivial, by omega, by omega⟩

/-- The size of a finite double has the form that comparison relies on. -/
theorem canonical_ofFloat (hfin : x.isFinite = true) : (Binary64.ofFloat x).Canonical := by
  have hcanonical := canonical_unpack x.toModel
  rcases unpack_eq hfin with ⟨-, hbits⟩ | ⟨hm, hunpack⟩
  · rw [hbits]
    exact ⟨by decide, by decide, by decide, Or.inr rfl⟩
  · rw [hunpack] at hcanonical
    obtain ⟨hshort, hlow, hhigh, hfull⟩ := hcanonical
    exact ⟨hshort, hlow, hhigh, hfull⟩

/-- The units of a finite double, from its sign and its size. -/
theorem units_eq (hfin : x.isFinite = true) :
    units x =
      if signBit x then -(size (Binary64.ofFloat x).mantissa (Binary64.ofFloat x).exponent : ℤ)
      else size (Binary64.ofFloat x).mantissa (Binary64.ofFloat x).exponent := by
  rw [units]
  rcases unpack_eq hfin with ⟨hunpack, hbits⟩ | ⟨hm, hunpack⟩
  · rw [hunpack, hbits]
    split <;> rfl
  · rw [hunpack, signOf]
    split <;> rfl

/-- The sign, the mantissa and the exponent are the whole double. -/
theorem eq_of_ofFloat (hsize : Binary64.ofFloat x = Binary64.ofFloat y)
    (hsign : signBit x = signBit y) : x = y := by
  have hbits : x.toBits = y.toBits := by
    have hshort := x.toBits.toNat_lt
    have hshort' := y.toBits.toNat_lt
    rw [signBit, signBit, decide_eq_decide] at hsign
    simp only [Binary64.ofFloat, Binary64.hiddenBit] at hsize
    refine UInt64.toNat_inj.mp ?_
    by_cases hx : x.toBits.toNat / 0x10000000000000 % 2048 = 0 <;>
      by_cases hy : y.toBits.toNat / 0x10000000000000 % 2048 = 0 <;>
      simp only [hx, hy, if_true, if_false, Binary64.mk.injEq] at hsize <;> omega
  cases x with
  | ofModel a =>
      cases y with
      | ofModel b =>
          cases a
          cases b
          congr

/-- Sizes of this form are the same if they are as numbers of units. -/
theorem eq_of_size {b b' : Binary64} (hb : b.Canonical) (hb' : b'.Canonical)
    (h : size b.mantissa b.exponent = size b'.mantissa b'.exponent) : b = b' := by
  obtain ⟨m, e⟩ := b
  obtain ⟨m', e'⟩ := b'
  dsimp only at h
  rcases lt_trichotomy e e' with hlt | rfl | hgt
  · exact absurd h (size_lt_of_exponent_lt hb.short hb.low hb'.full hlt).ne
  · rw [Nat.eq_of_mul_eq_mul_right (Nat.two_pow_pos _) h]
  · exact absurd h (size_lt_of_exponent_lt hb'.short hb'.low hb.full hgt).ne'

/-- **Doubles of the same units are the same**, unless they are zeros. -/
theorem eq_of_units (hx : x.isFinite = true) (hy : y.isFinite = true) (h : units x = units y)
    (hne : units x ≠ 0) : x = y := by
  have hsame : signBit x = signBit y ∧
      size (Binary64.ofFloat x).mantissa (Binary64.ofFloat x).exponent =
        size (Binary64.ofFloat y).mantissa (Binary64.ofFloat y).exponent := by
    rw [units_eq hx] at h hne
    rw [units_eq hy] at h
    cases hsx : signBit x <;> cases hsy : signBit y <;>
      simp only [hsx, hsy, if_true, if_false, Bool.false_eq_true, true_and] at h hne ⊢ <;> omega
  exact eq_of_ofFloat (eq_of_size (canonical_ofFloat hx) (canonical_ofFloat hy) hsame.2) hsame.1

theorem unpack_neg (hx : x.isFinite = true) : (-x).toModel.unpack = x.toModel.unpack.neg :=
  unpack_pack (canonical_neg.mpr (canonical_unpack x.toModel)) ((isFinite_neg _).trans hx)

theorem units_neg (hx : x.isFinite = true) : (-x).isFinite = true ∧ units (-x) = -units x := by
  have hneg := unpack_neg hx
  constructor
  · change (-x).toModel.unpack.isFinite = true
    rw [hneg, isFinite_neg]
    exact hx
  · rw [units, hneg, unitsOf_neg]
    rfl

end Double

end QuadCode
