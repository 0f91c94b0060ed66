import QuadCode.Proofs.Double.Arithmetic

/-!
# The numbers that doubles stand for

Counting in units keeps everything whole, but what a finite double means is a rational number: so
many times `2 ^ (-1074)`.  A computation with doubles is exact if its result stands for the number
that the computation with numbers gives.

Main statements:

* `Counts.exactly`: what a double with so many units stands for;
* `Exactly.counts` and `Counts.exists_two_pow`: the units of a double that stands for a power of two;
* `Exactly.lt` and `Exactly.le_iff`: doubles are ordered as the numbers they stand for.
-/

namespace QuadCode.Double

/-- The number that a finite double stands for. -/
def value (x : Float) : ℚ :=
  units x / 2 ^ 1074

/-- A double that stands for a number. -/
structure Exactly (x : Float) (q : ℚ) : Prop where
  finite : x.isFinite = true
  eq : value x = q

variable {x y : Float}

theorem value_mul (x : Float) : value x * 2 ^ 1074 = units x :=
  div_mul_cancel₀ _ (pow_ne_zero _ two_ne_zero)

/-- Powers of two in units. -/
theorem zpow_mul_units {g : ℕ} {e : ℤ} (h : (g : ℤ) = e + 1074) :
    (2 : ℚ) ^ e * 2 ^ 1074 = 2 ^ g := by
  have htwo : (2 : ℚ) ≠ 0 := two_ne_zero
  have hsum := zpow_add₀ htwo e (1074 : ℕ)
  rw [zpow_natCast] at hsum
  rw [← hsum, ← zpow_natCast, h]
  rfl

/-- What a double stands for whose units are a number of steps of a power of two. -/
theorem Counts.exactly {m g : ℕ} {e : ℤ} (h : Counts x (m * 2 ^ g)) (hg : (g : ℤ) = e + 1074) :
    Exactly x (m * 2 ^ e) := by
  refine ⟨h.1, ?_⟩
  rw [value, h.2, div_eq_iff (pow_ne_zero _ two_ne_zero), mul_assoc, zpow_mul_units hg]
  push_cast
  rfl

/-- The units of a double that stands for a power of two. -/
theorem Exactly.counts {g : ℕ} {e : ℤ} (h : Exactly x (2 ^ e)) (hg : (g : ℤ) = e + 1074) :
    Counts x (2 ^ g) := by
  refine ⟨h.finite, ?_⟩
  have hunits := value_mul x
  rw [h.eq, zpow_mul_units hg] at hunits
  exact_mod_cast hunits.symm

/-- Half a unit below zero is half the least double. -/
theorem half_unit_le_iff {c : ℚ} :
    -(2 ^ (-1074 : ℤ) / 2) ≤ value x * c ↔ -(1 / 2) ≤ units x * c := by
  have hproduct : value x * c * 2 ^ 1074 = units x * c := by rw [mul_right_comm, value_mul]
  have hhalf : -((2 : ℚ) ^ (-1074 : ℤ) / 2) * 2 ^ 1074 = -(1 / 2) := by
    rw [neg_mul, div_mul_eq_mul_div, zpow_mul_units (g := 0) rfl, pow_zero]
  rw [← hproduct, ← hhalf, mul_le_mul_iff_left₀ (pow_pos two_pos _)]

/-- A double in the normal range has `2 ^ 52` units or more. -/
theorem Counts.normal {n : ℕ} (h : Counts x n) (hx : 2 ^ (-1022 : ℤ) ≤ value x) : 2 ^ 52 ≤ n := by
  have hunits := mul_le_mul_of_nonneg_right hx (pow_nonneg zero_le_two 1074)
  rw [zpow_mul_units (g := 52) rfl, value_mul, h.2] at hunits
  exact_mod_cast hunits

/-- A positive finite number is a positive number of units. -/
theorem exists_counts_pos (hfin : x.isFinite = true) (hpos : ¬ x ≤ 0.0) :
    ∃ n, Counts x n ∧ 0 < n := by
  obtain ⟨hnumber, -⟩ := isFinite_iff.mp hfin
  have hlt := (lt_or_le (x := 0.0) (by decide) hnumber).resolve_right hpos
  obtain ⟨-, -, hunits⟩ := lt_iff.mp hlt
  rw [units_zero] at hunits
  exact ⟨(units x).toNat, ⟨hfin, by omega⟩, by omega⟩

/-- The units of a double that stands for a power of two, whatever the power. -/
theorem Counts.exists_two_pow {n : ℕ} (h : Counts x n) (hn : 0 < n) {e : ℤ}
    (hx : value x = 2 ^ e) : ∃ g : ℕ, n = 2 ^ g := by
  have hunits : (n : ℚ) = 2 ^ (e + 1074) := by
    have hmul := value_mul x
    rw [hx, h.2, Int.cast_natCast] at hmul
    rw [← hmul, zpow_add₀ two_ne_zero]
    rfl
  -- There is no half of a unit.
  have hpower : 0 ≤ e + 1074 := by
    by_contra hneg
    have hsmall : (2 : ℚ) ^ (e + 1074) < 1 := zpow_lt_one_of_neg₀ one_lt_two (by omega)
    rw [← hunits] at hsmall
    exact hsmall.not_ge (by exact_mod_cast hn)
  obtain ⟨g, hg⟩ := Int.eq_ofNat_of_zero_le hpower
  refine ⟨g, ?_⟩
  rw [hg] at hunits
  exact_mod_cast hunits

/-- Doubles are ordered as the numbers they stand for. -/
theorem Exactly.lt {p q : ℚ} (hx : Exactly x p) (hy : Exactly y q) (h : p < q) : x < y := by
  refine lt_iff.mpr ⟨(isFinite_iff.mp hx.finite).1, (isFinite_iff.mp hy.finite).1, ?_⟩
  have hunits : (units x : ℚ) < units y := by
    rw [← value_mul x, ← value_mul y, hx.eq, hy.eq]
    exact mul_lt_mul_of_pos_right h (pow_pos two_pos _)
  exact_mod_cast hunits

/-- A finite double is compared with a double as the numbers are that they stand for. -/
theorem Exactly.le_iff {q : ℚ} (hy : Exactly y q) (hx : x.isFinite = true) :
    y ≤ x ↔ q ≤ value x := by
  have hunits : (units y : ℚ) ≤ units x ↔ q ≤ value x := by
    rw [← value_mul x, ← value_mul y, hy.eq, mul_le_mul_iff_left₀ (pow_pos two_pos _)]
  rw [← hunits, Int.cast_le, Double.le_iff]
  exact ⟨fun h => h.2.2, fun h => ⟨(isFinite_iff.mp hy.finite).1, (isFinite_iff.mp hx).1, h⟩⟩

theorem value_one : value 1.0 = 1 := by
  rw [value, units_one, Int.cast_pow, Int.cast_ofNat, div_self (pow_ne_zero _ two_ne_zero)]

theorem exactly_zero : Exactly 0.0 0 := by
  refine ⟨by decide, ?_⟩
  rw [value, units_zero, Int.cast_zero, zero_div]

end QuadCode.Double
