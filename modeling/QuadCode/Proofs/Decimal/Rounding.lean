import QuadCode.Proofs.Decimal.Shortest
import QuadCode.Proofs.Double.Edges
import QuadCode.Proofs.Double.Values

/-!
# Decimals that round to a double

`Binary64.admits` compares whole numbers.  Divided by the step of the double, they say that a decimal
lies between the middles to the two neighbours of the double, and rounding takes everything there to
the double.  Below a power of two the doubles are twice as dense, so there the middle is a quarter of
a step away, and what is rounded is rounded in half steps.

Main statements:

* `within_of_admits`: a decimal that is admitted lies between the middles;
* `nearestUnits_of_admits`: it is rounded to the double.
-/

namespace QuadCode

open Double

/-- A number in steps that lies between the middles to the neighbours of a mantissa, the lower of
which is at a given distance.  The middles belong to even mantissas. -/
structure Within (m : ℕ) (distance y : ℚ) : Prop where
  low : m - distance < y ∨ m - distance = y ∧ m % 2 = 0
  high : y < m + 1 / 2 ∨ y = m + 1 / 2 ∧ m % 2 = 0

namespace Within

variable {m G : ℕ} {distance y : ℚ}

theorem le (h : Within m distance y) : m - distance ≤ y ∧ y ≤ m + 1 / 2 := by
  constructor
  · rcases h.low with hlt | ⟨heq, -⟩
    · exact hlt.le
    · exact heq.le
  · rcases h.high with hlt | ⟨heq, -⟩
    · exact hlt.le
    · exact heq.le

/-- What lies between the middles is rounded to the mantissa. -/
theorem roundEven_eq (h : Within m (1 / 2) y) (hy : 0 ≤ y) : roundEven y = m := by
  refine Nat.le_antisymm ((roundEven_le_iff hy).mpr h.high) ?_
  cases m with
  | zero => exact Nat.zero_le _
  | succ m =>
      by_contra hless
      have hbelow := (roundEven_le_iff hy).mp (Nat.lt_succ_iff.mp (Nat.not_le.mp hless))
      have hlow := h.low
      push_cast at hlow
      rcases hlow with hlow | ⟨hlow, heven⟩ <;> rcases hbelow with hbelow | ⟨hbelow, heven'⟩
      · linarith
      · linarith
      · linarith
      · omega

/-- In units it is rounded to the double, unless it is below a power of two. -/
theorem nearestUnits_eq (h : Within m (1 / 2) y) (hy : 0 ≤ y) (hshort : m < 2 ^ 53)
    (hfull : G = 0 ∨ 2 ^ 52 < m ∨ m = 2 ^ 52 ∧ m ≤ y) :
    nearestUnits (y * 2 ^ G) = m * 2 ^ G := by
  obtain ⟨hlow, hhigh⟩ := h.le
  have hlarge : y < 2 ^ 53 := by
    have hmost : (m : ℚ) + 1 ≤ 2 ^ 53 := by exact_mod_cast hshort
    linarith
  have hgrain : G = 0 ∨ 2 ^ 52 ≤ y := by
    refine hfull.imp_right ?_
    rintro (hmore | ⟨rfl, hle⟩)
    · have hmore' : (2 ^ 52 : ℚ) + 1 ≤ m := by exact_mod_cast hmore
      linarith
    · exact_mod_cast hle
  rw [nearestUnits_mul_two_pow hlarge hgrain, h.roundEven_eq hy]

/-- Below a power of two, half a step is a step. -/
theorem nearestUnits_below (h : Within (2 ^ 52) (1 / 4) y) (hless : y < 2 ^ 52) :
    nearestUnits (y * 2 ^ (G + 1)) = 2 ^ 52 * 2 ^ (G + 1) := by
  have hlow := h.low
  push_cast at hlow
  have hhalves : Within (2 ^ 53) (1 / 2) (2 * y) := by
    constructor
    · push_cast
      rcases hlow with hlt | ⟨heq, -⟩
      · exact .inl (by linarith)
      · exact .inr ⟨by linarith, by decide⟩
    · push_cast
      exact .inl (by linarith)
  have hlarge : (2 ^ 52 : ℚ) - 1 / 4 ≤ y := by exact_mod_cast h.le.1
  have hdouble : y * 2 ^ (G + 1) = 2 * y * 2 ^ G := by ring
  rw [hdouble, nearestUnits_mul_two_pow (by linarith) (.inr (by linarith)),
    hhalves.roundEven_eq (by linarith)]
  ring

end Within

namespace Binary64

variable {b : Binary64} {g : ℤ} {c : ℕ}

/-- A decimal in steps of the double. -/
def steps (b : Binary64) (g : ℤ) (c : ℕ) : ℚ :=
  c * 10 ^ g / 2 ^ b.exponent

theorem steps_nonneg (b : Binary64) (g : ℤ) (c : ℕ) : 0 ≤ b.steps g c := by
  unfold steps
  positivity

/-- Powers with an integer exponent as fractions. -/
theorem zpow_mul_pow {a : ℚ} (ha : a ≠ 0) (k : ℤ) : a ^ k * a ^ (-k).toNat = a ^ k.toNat := by
  rw [← zpow_natCast, ← zpow_natCast, ← zpow_add₀ ha]
  congr 1
  omega

/-- The steps as the fraction that is compared. -/
theorem steps_eq (b : Binary64) (g : ℤ) (c : ℕ) :
    b.steps g c = (c * b.scale g : ℕ) / b.unit g := by
  have htwo := zpow_mul_pow (two_ne_zero (α := ℚ)) b.exponent
  have hten := zpow_mul_pow (a := 10) (by norm_num) g
  have hunit : (b.unit g : ℚ) ≠ 0 := by exact_mod_cast (b.unit_pos g).ne'
  rw [steps, div_eq_div_iff (by positivity) hunit]
  change (c : ℚ) * 10 ^ g * (2 ^ b.exponent.toNat * 10 ^ (-g).toNat : ℕ) =
    (c * (2 ^ (-b.exponent).toNat * 10 ^ g.toNat) : ℕ) * 2 ^ b.exponent
  push_cast
  rw [← htwo, ← hten]
  ring

theorem mul_unit_le_iff {a : ℕ} :
    a * b.unit g ≤ 4 * (c * b.scale g) ↔ (a : ℚ) ≤ 4 * b.steps g c := by
  have hunit : (0 : ℚ) < b.unit g := by exact_mod_cast b.unit_pos g
  rw [steps_eq, ← mul_div_assoc, le_div_iff₀ hunit]
  norm_cast

theorem le_mul_unit_iff {a : ℕ} :
    4 * (c * b.scale g) ≤ a * b.unit g ↔ 4 * b.steps g c ≤ a := by
  have hunit : (0 : ℚ) < b.unit g := by exact_mod_cast b.unit_pos g
  rw [steps_eq, ← mul_div_assoc, div_le_iff₀ hunit]
  norm_cast

/-- **A decimal that rounds to the double** lies between the middles to its neighbours. -/
theorem within_of_admits (hm : b.mantissa ≠ 0) (h : b.admits g c = true) :
    Within b.mantissa (if b.stepsBelow then 1 / 4 else 1 / 2) (b.steps g c) := by
  have hlow : ((4 * b.mantissa - (if b.stepsBelow then 1 else 2) : ℕ) : ℚ) =
      4 * (b.mantissa - if b.stepsBelow then 1 / 4 else 1 / 2) := by
    cases b.stepsBelow <;>
    · rw [Nat.cast_sub (by simp; omega)]
      push_cast
      norm_num
      ring
  have hhigh : ((4 * b.mantissa + 2 : ℕ) : ℚ) = 4 * (b.mantissa + 1 / 2) := by
    push_cast
    ring
  simp only [admits] at h
  split at h
  · next heven =>
      obtain ⟨hleast, hmost⟩ := of_decide_eq_true h
      rw [mul_unit_le_iff, hlow] at hleast
      rw [le_mul_unit_iff, hhigh] at hmost
      constructor
      · exact (lt_or_eq_of_le (by linarith)).imp_right fun heq => ⟨heq, heven⟩
      · exact (lt_or_eq_of_le (by linarith)).imp_right fun heq => ⟨heq, heven⟩
  · obtain ⟨hleast, hmost⟩ := of_decide_eq_true h
    rw [← not_le, le_mul_unit_iff, hlow] at hleast
    rw [← not_le, mul_unit_le_iff, hhigh] at hmost
    exact ⟨.inl (by linarith), .inl (by linarith)⟩

theorem stepsBelow_iff : b.stepsBelow = true ↔ b.mantissa = 2 ^ 52 ∧ -1074 < b.exponent := by
  rw [stepsBelow, Bool.and_eq_true, beq_iff_eq, decide_eq_true_iff]
  rfl

/-- **What rounds to a double**, in units. -/
theorem nearestUnits_of_admits (hb : b.Canonical) (hm : b.mantissa ≠ 0)
    (h : b.admits g c = true) :
    nearestUnits (c * 10 ^ g * 2 ^ 1074) = size b.mantissa b.exponent := by
  have hwithin := within_of_admits hm h
  have hnonneg := b.steps_nonneg g c
  obtain ⟨hshort, hleast, -, hfull⟩ := hb
  obtain ⟨G, hG⟩ := Int.eq_ofNat_of_zero_le (show 0 ≤ b.exponent + 1074 by omega)
  have hsteps : (c : ℚ) * 10 ^ g * 2 ^ 1074 = b.steps g c * 2 ^ G := by
    rw [← zpow_mul_units hG.symm, steps, ← mul_assoc, div_mul_cancel₀ _ (by positivity)]
  rw [hsteps, size, hG, Int.toNat_natCast]
  cases hpower : b.stepsBelow with
  | false =>
      rw [hpower] at hwithin
      refine hwithin.nearestUnits_eq hnonneg hshort ?_
      have hnone : ¬ (b.mantissa = 2 ^ 52 ∧ -1074 < b.exponent) := by
        rw [← stepsBelow_iff, hpower]
        exact Bool.false_ne_true
      omega
  | true =>
      rw [hpower] at hwithin
      obtain ⟨hmantissa, hmore⟩ := stepsBelow_iff.mp hpower
      rcases lt_or_ge (b.steps g c) b.mantissa with hless | hge
      · obtain ⟨G, rfl⟩ : ∃ n, G = n + 1 := ⟨G - 1, by omega⟩
        rw [hmantissa] at hwithin hless ⊢
        exact hwithin.nearestUnits_below (by exact_mod_cast hless)
      · have hhalf : Within b.mantissa (1 / 2) (b.steps g c) := ⟨.inl (by linarith), hwithin.high⟩
        exact hhalf.nearestUnits_eq hnonneg hshort (.inr (.inr ⟨hmantissa, hge⟩))

end Binary64

end QuadCode
