import QuadCode.Proofs.Double.Arithmetic

/-!
# Results that are not finite

A result that is too great for a double becomes infinite, and zero times infinity is not a number.
Apart from that, arithmetic on finite doubles gives numbers.  Differences are rounded monotonically,
so if the difference of two doubles is finite, then so are the differences of all doubles between
them.

Main statements:

* `isFinite_sub_iff` and `isFinite_div_iff`: when a difference or a quotient is finite;
* `isFinite_sub_of_between`: differences of doubles between two others;
* `isNaN_mul`: the product of finite doubles is a number;
* `isNaN_zero_mul` and `isNaN_mul_div`: products that are not numbers.
-/

namespace QuadCode.Double

open Float.Model
open Float.Model.UnpackedFloat (Sign)

theorem isNaN_packComponents (s : Sign) {e : BitVec 11} (m : BitVec 52) (h : e ≠ -1#11) :
    (UnpackedFloat.unpack .binary64 (UnpackedFloat.packComponents .binary64 s e m)).isNaN =
      false := by
  unfold UnpackedFloat.unpack
  dsimp only
  rw [UnpackedFloat.unpackExponent_packComponents, if_neg h]
  split
  · split <;> rfl
  · rfl

/-- A result whose exponent is too great is encoded as infinity. -/
theorem unpack_pack_of_huge (s : Sign) {m : ℕ} {e : ℤ} (hm : 0 < m) (h : 972 ≤ e) :
    (pack (.finite s m e hm)).unpack = .infinity s := by
  change UnpackedFloat.unpack .binary64 (UnpackedFloat.pack .binary64 (.finite s m e hm)) = _
  have hbias : Format.binary64.exponentBias = 1023 := rfl
  have hbits : (Format.binary64.mantissaBitsWithoutImplicit : ℤ) = 52 := rfl
  have hexponent : 2 ^ Format.binary64.exponentBits = 2048 := rfl
  unfold UnpackedFloat.pack
  dsimp only
  rw [if_pos (by omega)]
  cases s <;> rfl

/-- What is encoded is a number if and only if it was one before. -/
theorem isNaN_unpack_pack (u : UnpackedFloat) : (pack u).unpack.isNaN = u.isNaN := by
  cases u with
  | notANumber => rfl
  | infinity s | zero s => cases s <;> rfl
  | finite s m e hm =>
      by_cases hhuge : 972 ≤ e
      · rw [unpack_pack_of_huge s hm hhuge]
        rfl
      · change (UnpackedFloat.unpack .binary64
          (UnpackedFloat.pack .binary64 (.finite s m e hm))).isNaN = false
        have hbias : Format.binary64.exponentBias = 1023 := rfl
        have hbits : (Format.binary64.mantissaBitsWithoutImplicit : ℤ) = 52 := rfl
        have hexponent : 2 ^ Format.binary64.exponentBits = 2048 := rfl
        unfold UnpackedFloat.pack
        dsimp only
        rw [if_neg (by omega)]
        split
        · apply isNaN_packComponents
          intro hones
          have hfield := congrArg BitVec.toNat hones
          rw [BitVec.toNat_ofNat] at hfield
          have hall : (-1#11).toNat = 2047 := rfl
          omega
        · exact isNaN_packComponents s _ (by decide)

/-- A result beyond the greatest double has too great an exponent. -/
theorem huge_of_beyond_le {m g : ℕ} (hm : m < 2 ^ 53) (h : beyond ≤ m * 2 ^ g) :
    972 ≤ (g : ℤ) - 1074 := by
  by_contra hsmall
  have hlt := size_lt_beyond (e := g - 1074) hm (by omega) (by omega)
  rw [size_sub] at hlt
  exact h.not_gt hlt

/-- A result beyond the greatest double is encoded as infinity. -/
theorem Rounded.isFinite_pack {u : UnpackedFloat} {n : ℕ} (h : Rounded u n) :
    (pack u).unpack.isFinite = true ↔ n < beyond := by
  constructor
  · intro hfin
    by_contra hbeyond
    rcases h with ⟨-, rfl⟩ | ⟨m, g, hm, rfl, rfl, hhigh, -⟩
    · exact hbeyond beyond_pos
    · rw [unpack_pack_of_huge .positive hm (huge_of_beyond_le hhigh (Nat.not_lt.mp hbeyond))] at hfin
      cases hfin
  · intro hrange
    have hholds := h.holds hrange
    rw [unpack_pack hholds.1 hholds.2.1]
    exact hholds.2.1

section

variable {x y z : Float}

/-- What is not finite is infinite or no number at all. -/
theorem isFinite_eq_false_iff : x.isFinite = false ↔ x.isNaN = true ∨ x.isInf = true := by
  change x.toModel.unpack.isFinite = false ↔
    x.toModel.unpack.isNaN = true ∨ x.toModel.unpack.isInf = true
  cases x.toModel.unpack with
  | notANumber => exact iff_of_true rfl (.inl rfl)
  | infinity s => exact iff_of_true rfl (.inr rfl)
  | zero s | finite s m e hm =>
      constructor
      · intro h
        cases h
      · rintro (h | h) <;> cases h

theorem isInf_of_finite (h : x.isFinite = true) : x.isInf = false := by
  cases hinf : x.isInf with
  | false => rfl
  | true =>
      rw [isFinite_eq_false_iff.mpr (.inr hinf)] at h
      cases h

/-- The difference of two finite doubles, rounded. -/
theorem rounded_sub_of_le (hx : x.isFinite = true) (hy : y.isFinite = true) (hle : y ≤ x) :
    Rounded (UnpackedFloat.sub .binary64 x.toModel.unpack y.toModel.unpack)
      (nearestUnits ((units x - units y).toNat : ℕ)) := by
  obtain ⟨-, -, hunits⟩ := le_iff.mp hle
  refine rounded_sub (canonical_unpack x.toModel) (canonical_unpack y.toModel) hx hy ?_
  exact (Int.toNat_of_nonneg (sub_nonneg.mpr hunits)).symm

/-- A difference is finite if it is in range. -/
theorem isFinite_sub_iff (hx : x.isFinite = true) (hy : y.isFinite = true) (hle : y ≤ x) :
    (x - y).isFinite = true ↔ nearestUnits ((units x - units y).toNat : ℕ) < beyond :=
  (rounded_sub_of_le hx hy hle).isFinite_pack

/-- A quotient is finite if it is in range. -/
theorem isFinite_div_iff {m n : ℕ} (hx : Counts x m) (hy : Counts y n) (hn : 0 < n) :
    (x / y).isFinite = true ↔ nearestUnits ((m : ℚ) / n * 2 ^ 1074) < beyond :=
  (rounded_div hx.holds hy.holds hn).isFinite_pack

/-- The doubles between two others are no further from the lower one than the upper one is. -/
theorem isFinite_sub_of_between (hx : x.isFinite = true) (hy : y.isFinite = true)
    (hz : z.isFinite = true) (hxy : x ≤ y) (hyz : y ≤ z) (hfin : (z - x).isFinite = true) :
    (y - x).isFinite = true := by
  rw [isFinite_sub_iff hz hx (le_trans hxy hyz)] at hfin
  rw [isFinite_sub_iff hy hx hxy]
  obtain ⟨-, -, hunits⟩ := le_iff.mp hyz
  have hless : (units y - units x).toNat ≤ (units z - units x).toNat := by omega
  exact (nearestUnits_mono (Nat.cast_nonneg _) (by exact_mod_cast hless)).trans_lt hfin

/-- The difference of equal numbers is zero. -/
theorem counts_sub_of_eq (hx : x.isFinite = true) (hy : y.isFinite = true)
    (heq : units x = units y) : Counts (x - y) 0 := by
  have hle : y ≤ x :=
    le_iff.mpr ⟨(isFinite_iff.mp hy).1, (isFinite_iff.mp hx).1, heq.ge⟩
  have hrounded := rounded_sub_of_le hx hy hle
  rw [heq, sub_self, Int.toNat_zero, Nat.cast_zero, nearestUnits_zero] at hrounded
  exact (hrounded.holds beyond_pos).counts

/-- A double of no units is a zero. -/
theorem Counts.exists_zero (h : Counts x 0) : ∃ s, x.toModel.unpack = .zero s := by
  rcases h.holds.zero_or_finite with ⟨hzero, -⟩ | ⟨m, e, hm, -, hsize, -⟩
  · exact hzero
  · exact absurd hsize (size_pos hm).ne

/-- The product of finite doubles is a number. -/
theorem isNaN_mul (hx : x.isFinite = true) (hy : y.isFinite = true) : (x * y).isNaN = false := by
  change (pack (UnpackedFloat.mul .binary64 x.toModel.unpack y.toModel.unpack)).unpack.isNaN = false
  change x.toModel.unpack.isFinite = true at hx
  change y.toModel.unpack.isFinite = true at hy
  rw [isNaN_unpack_pack]
  generalize x.toModel.unpack = a at hx
  generalize y.toModel.unpack = b at hy
  cases a with
  | notANumber | infinity s => cases hx
  | zero s =>
      cases b with
      | notANumber | infinity s' => cases hy
      | zero s' | finite s' m' e' hm' => rfl
  | finite s m e hm =>
      cases b with
      | notANumber | infinity s' => cases hy
      | zero s' => rfl
      | finite s' m' e' hm' =>
          unfold UnpackedFloat.mul UnpackedFloat.roundWithAccuracy
          dsimp only
          split <;> rfl

/-- Zero times what is not finite is not a number. -/
theorem isNaN_zero_mul (hx : Counts x 0) (hy : y.isFinite = false) : (x * y).isNaN = true := by
  change (pack (UnpackedFloat.mul .binary64 x.toModel.unpack y.toModel.unpack)).unpack.isNaN = true
  change y.toModel.unpack.isFinite = false at hy
  obtain ⟨s, hs⟩ := hx.exists_zero
  rw [isNaN_unpack_pack, hs]
  generalize y.toModel.unpack = b at hy
  cases b with
  | notANumber | infinity s' => rfl
  | zero s' | finite s' m' e' hm' => cases hy

/-- What is not finite does not come back to a number by its inverse. -/
theorem isNaN_mul_div (hx : x.isFinite = true) (hy : y.isFinite = false) :
    (y * (x / y)).isNaN = true := by
  change (pack (UnpackedFloat.mul .binary64 y.toModel.unpack
    (pack (UnpackedFloat.div .binary64 x.toModel.unpack y.toModel.unpack)).unpack)).unpack.isNaN =
      true
  change x.toModel.unpack.isFinite = true at hx
  change y.toModel.unpack.isFinite = false at hy
  rw [isNaN_unpack_pack]
  generalize x.toModel.unpack = a at hx
  generalize y.toModel.unpack = b at hy
  have hzero : ∀ s, (pack (.zero s)).unpack = .zero s := fun s => unpack_pack trivial rfl
  cases b with
  | notANumber => rfl
  | zero s' | finite s' m' e' hm' => cases hy
  | infinity s' =>
      cases a with
      | notANumber | infinity s => cases hx
      | zero s | finite s m e hm =>
          rw [UnpackedFloat.div, hzero]
          rfl

end

end QuadCode.Double
