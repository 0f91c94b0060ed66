import QuadCode.Proofs.Double.Products

/-!
# Whole numbers as doubles

A whole number of at most 53 bits is a double, and it is turned into that double without rounding.

Main statement: `counts_ofNat`.
-/

namespace QuadCode.Double

open Float.Model

/-- A whole number in units. -/
theorem size_whole (n : ℕ) : size n 0 = n * 2 ^ 1074 := by
  rw [size]
  congr

theorem whole_lt_beyond {n : ℕ} (h : n < 2 ^ 53) : n * 2 ^ 1074 < beyond := by
  rw [← size_whole]
  exact size_lt_beyond h (by decide) (by decide)

theorem two_pow_lt_beyond {k : ℕ} (h : k < 2098) : 2 ^ k < beyond := by
  rw [beyond, size, ← pow_add]
  exact Nat.pow_lt_pow_right (by decide) (by omega)

theorem counts_toFloat {u : UInt64} (h : u.toNat < 2 ^ 53) :
    Counts u.toFloat (u.toNat * 2 ^ 1074) := by
  have hround := rounded_normalize (n := u.toNat) (e := 0) (by decide)
  rw [size_whole, nearestUnits_of_short _ h] at hround
  exact (hround.holds (whole_lt_beyond h)).counts

/-- **A whole number of at most 53 bits** is not rounded. -/
theorem counts_ofNat {n : ℕ} (h : n < 2 ^ 53) : Counts (Float.ofNat n) (n * 2 ^ 1074) := by
  have hn : n.toUInt64.toNat = n := UInt64.toNat_ofNat_of_lt' (h.trans (by decide))
  have hwhole := counts_toFloat (u := n.toUInt64) (by rwa [hn])
  rw [hn] at hwhole
  -- The number is multiplied by the power of ten with exponent zero.
  have hfast : Float.ofNat n = n.toUInt64.toFloat * .ofBits 0x3ff0000000000000 := by
    change Float.ofScientific n false 0 = _
    rw [Float.ofScientific, dif_pos ⟨h, by decide⟩]
    rfl
  have hone : Counts (.ofBits 0x3ff0000000000000) (2 ^ 1074) := ⟨by decide, by decide +kernel⟩
  have hproduct := hwhole.mul hone
  have hsame : ((n * 2 ^ 1074 : ℕ) : ℚ) * (2 ^ 1074 : ℕ) / 2 ^ 1074 = (n * 2 ^ 1074 : ℕ) := by
    rw [Nat.cast_pow 2, Nat.cast_ofNat, mul_div_cancel_right₀ _ (pow_ne_zero _ two_ne_zero)]
  rw [hsame, nearestUnits_of_short _ h] at hproduct
  rw [hfast]
  exact hproduct (whole_lt_beyond h)

end QuadCode.Double
