import QuadCode.Proofs.Double.Edges
import QuadCode.Proofs.Double.Infinite

/-!
# Products

The product of two doubles is the exact product, rounded, with the sign that it has by the rule of
signs.  There are always bits enough to be rounded: either one of the mantissas has all its bits, or
both exponents are the least, and then the product is far below a unit.  A product that is too great
is infinite, and then it is counted as `beyond`.

Main statements:

* `rounded_mul`: the product of doubles that are not negative;
* `Counts.units_mul` and `units_mul_of_neg`: a product in units, whatever the sign of the first
  factor;
* `isFinite_of_mul`: a product is finite only if the factor is.
-/

namespace QuadCode.Double

open Float.Model
open Float.Model.UnpackedFloat (Sign)

theorem roundWithAccuracy_neg (s : Sign) (m : ℕ) (e : ℤ) (a : UnpackedFloat.Accuracy) :
    UnpackedFloat.roundWithAccuracy .binary64 (-s) m e a =
      (UnpackedFloat.roundWithAccuracy .binary64 s m e a).neg := by
  unfold UnpackedFloat.roundWithAccuracy
  dsimp only
  split <;> rfl

/-- Changing the sign of a factor changes the sign of the product. -/
theorem mul_unpacked_neg (a b : UnpackedFloat) :
    UnpackedFloat.mul .binary64 a.neg b = (UnpackedFloat.mul .binary64 a b).neg := by
  have hsign (s s' : Sign) : -s * s' = -(s * s') := by cases s <;> cases s' <;> rfl
  cases a <;> cases b <;> try rfl
  all_goals simp only [UnpackedFloat.mul, UnpackedFloat.neg, hsign, roundWithAccuracy_neg]

theorem unpacked_neg_neg (u : UnpackedFloat) : u.neg.neg = u := by
  have hsign (s : Sign) : - -s = s := by cases s <;> rfl
  cases u <;> simp only [UnpackedFloat.neg, hsign]

theorem apply_neg (s : Sign) (n : ℤ) : (-s).apply n = -s.apply n := by
  cases s with
  | negative => exact (Int.neg_neg n).symm
  | positive => rfl

theorem unitsOf_neg (u : UnpackedFloat) : unitsOf u.neg = -unitsOf u := by
  cases u with
  | notANumber | zero s => rfl
  | infinity s | finite s m e hm => exact apply_neg s _

theorem canonical_neg {u : UnpackedFloat} : Canonical u.neg ↔ Canonical u := by
  cases u <;> rfl

theorem isFinite_neg (u : UnpackedFloat) : u.neg.isFinite = u.isFinite := by
  cases u <;> rfl

/-- **The exact product of two doubles that are not negative is rounded.** -/
theorem rounded_mul {a b : UnpackedFloat} {m n : ℕ} (ha : Holds a m) (hb : Holds b n) :
    Rounded (UnpackedFloat.mul .binary64 a b) (nearestUnits ((m : ℚ) * n / 2 ^ 1074)) := by
  rcases ha.zero_or_finite with ⟨⟨s, rfl⟩, rfl⟩ | ⟨m₁, e₁, hm₁, rfl, rfl, -, he₁⟩
  · rw [Nat.cast_zero, zero_mul, zero_div, nearestUnits_zero]
    rcases hb.zero_or_finite with ⟨⟨s', rfl⟩, -⟩ | ⟨m₂, e₂, hm₂, rfl, -⟩ <;>
      exact Or.inl ⟨⟨_, rfl⟩, rfl⟩
  rcases hb.zero_or_finite with ⟨⟨s, rfl⟩, rfl⟩ | ⟨m₂, e₂, hm₂, rfl, rfl, -, he₂⟩
  · rw [Nat.cast_zero, mul_zero, zero_div, nearestUnits_zero]
    exact Or.inl ⟨⟨_, rfl⟩, rfl⟩
  have hbits : 52 ≤ (m₁ * m₂).log2 ∨ e₁ + e₂ ≤ -1074 := by
    obtain ⟨-, -, -, hfull⟩ := ha.1
    obtain ⟨-, -, -, hfull'⟩ := hb.1
    have hlong (h : 2 ^ 52 ≤ m₁ * m₂) : 52 ≤ (m₁ * m₂).log2 :=
      (Nat.le_log2 (Nat.mul_pos hm₁ hm₂).ne').mpr h
    rcases hfull with hfull | hleast
    · exact Or.inl (hlong (hfull.trans (Nat.le_mul_of_pos_right m₁ hm₂)))
    · rcases hfull' with hfull' | hleast'
      · exact Or.inl (hlong (hfull'.trans (Nat.le_mul_of_pos_left m₂ hm₁)))
      · exact Or.inr (by omega)
  have hscale : (size m₁ e₁ : ℚ) * size m₂ e₂ / 2 ^ 1074 =
      (m₁ * m₂ : ℕ) * 2 ^ (e₁ + e₂ + 1074) := by
    have hsplit : e₁ + e₂ + 1074 = (e₁ + 1074) + (e₂ + 1074) - (1074 : ℕ) := by omega
    rw [hsplit, zpow_sub₀ two_ne_zero, zpow_add₀ two_ne_zero, zpow_natCast, cast_size he₁,
      cast_size he₂, Nat.cast_mul, mul_mul_mul_comm, mul_div_assoc]
  rw [hscale]
  exact rounded_roundWithAccuracy (sub_self _) hbits

/-- An encoded result in units, where a result that is too great counts as `beyond`. -/
theorem unitsOf_pack_finite (s : Sign) {m g : ℕ} (hm : 0 < m) (hhigh : m < 2 ^ 53)
    (hlow : g = 0 ∨ 2 ^ 52 ≤ m) :
    unitsOf (pack (.finite s m (g - 1074) hm)).unpack = s.apply (min (m * 2 ^ g) beyond : ℕ) := by
  by_cases hrange : m * 2 ^ g < beyond
  · have hcanonical := (holds_finite hm hhigh hlow hrange).1
    rw [unpack_pack (u := .finite s m (g - 1074) hm) hcanonical rfl, Nat.min_eq_left hrange.le]
    exact congrArg (fun n : ℕ => s.apply n) (size_sub m g)
  · rw [unpack_pack_of_huge s hm (huge_of_beyond_le hhigh (Nat.not_lt.mp hrange)),
      Nat.min_eq_right (Nat.not_lt.mp hrange)]
    rfl

theorem Rounded.unitsOf_pack {u : UnpackedFloat} {n : ℕ} (h : Rounded u n) :
    unitsOf (pack u).unpack = (min n beyond : ℕ) := by
  rcases h with ⟨⟨s, rfl⟩, rfl⟩ | ⟨m, g, hm, rfl, rfl, hhigh, hlow⟩
  · rw [unpack_pack (u := .zero s) trivial rfl, Nat.zero_min]
    rfl
  · exact unitsOf_pack_finite .positive hm hhigh hlow

theorem Rounded.unitsOf_pack_neg {u : UnpackedFloat} {n : ℕ} (h : Rounded u n) :
    unitsOf (pack u.neg).unpack = -(min n beyond : ℕ) := by
  rcases h with ⟨⟨s, rfl⟩, rfl⟩ | ⟨m, g, hm, rfl, rfl, hhigh, hlow⟩
  · rw [UnpackedFloat.neg, unpack_pack (u := .zero (-s)) trivial rfl, Nat.zero_min]
    rfl
  · exact unitsOf_pack_finite .negative hm hhigh hlow

/-- With a factor that is not finite there is no finite product. -/
theorem mul_of_not_finite (a : UnpackedFloat) {b : UnpackedFloat} (hb : ¬ b.isFinite = true) :
    UnpackedFloat.mul .binary64 a b = .notANumber ∨
      ∃ s, UnpackedFloat.mul .binary64 a b = .infinity s := by
  cases b with
  | zero s | finite s m e hm => exact absurd rfl hb
  | notANumber => cases a <;> exact Or.inl rfl
  | infinity s =>
      cases a with
      | notANumber | zero s' => exact Or.inl rfl
      | infinity s' | finite s' m e hm => exact Or.inr ⟨_, rfl⟩

section

variable {x y : Float}

/-- Subtracting zero changes nothing. -/
theorem units_sub_zero (hx : x.isFinite = true) :
    (x - 0.0).isFinite = true ∧ units (x - 0.0) = units x := by
  have hsame : (x - 0.0).toModel.unpack = x.toModel.unpack := by
    have hsub (u : UnpackedFloat) : UnpackedFloat.sub .binary64 u (.zero .positive) = u := by
      cases u with
      | zero s => cases s <;> rfl
      | notANumber | infinity s | finite s m e hm => rfl
    have hzero : (0.0 : Float).toModel.unpack = .zero .positive := rfl
    change (pack (UnpackedFloat.sub .binary64 x.toModel.unpack (0.0 : Float).toModel.unpack)).unpack =
      x.toModel.unpack
    rw [hzero, hsub, unpack_pack (canonical_unpack x.toModel) hx]
  refine ⟨?_, congrArg unitsOf hsame⟩
  change (x - 0.0).toModel.unpack.isFinite = true
  rw [hsame]
  exact hx

/-- **A product in units.** -/
theorem Counts.units_mul {m n : ℕ} (hx : Counts x m) (hy : Counts y n) :
    units (x * y) = (min (nearestUnits ((m : ℚ) * n / 2 ^ 1074)) beyond : ℕ) :=
  (rounded_mul hx.holds hy.holds).unitsOf_pack

/-- A product in range. -/
theorem Counts.mul {m n : ℕ} (hx : Counts x m) (hy : Counts y n)
    (hrange : nearestUnits ((m : ℚ) * n / 2 ^ 1074) < beyond) :
    Counts (x * y) (nearestUnits ((m : ℚ) * n / 2 ^ 1074)) :=
  ((rounded_mul hx.holds hy.holds).holds hrange).counts

/-- A product in units, if the first factor is not positive. -/
theorem units_mul_of_neg {m n : ℕ} (hfin : x.isFinite = true) (hx : units x = -m)
    (hy : Counts y n) :
    units (x * y) = -(min (nearestUnits ((m : ℚ) * n / 2 ^ 1074)) beyond : ℕ) := by
  have hneg : Holds x.toModel.unpack.neg m := by
    refine ⟨canonical_neg.mpr (canonical_unpack x.toModel), (isFinite_neg _).trans hfin, ?_⟩
    rw [unitsOf_neg]
    exact neg_eq_iff_eq_neg.mpr hx
  have hmul := (rounded_mul hneg hy.holds).unitsOf_pack_neg
  rwa [mul_unpacked_neg, unpacked_neg_neg] at hmul

/-- A product is finite only if its second factor is. -/
theorem isFinite_of_mul (h : (x * y).isFinite = true) : y.isFinite = true := by
  change (pack (UnpackedFloat.mul .binary64 x.toModel.unpack y.toModel.unpack)).unpack.isFinite =
    true at h
  by_contra hy
  change ¬ y.toModel.unpack.isFinite = true at hy
  rcases mul_of_not_finite x.toModel.unpack hy with hproduct | ⟨s, hproduct⟩
  · rw [hproduct] at h
    cases h
  · rw [hproduct] at h
    cases s <;> cases h

end

end QuadCode.Double
