import Mathlib
import QuadCode.Geometry.Rect

/-!
# Doubles as whole numbers of units

Every finite double is a whole number of times the least positive one.  `units` is that number, and
the infinities are placed next to the finite doubles, just `beyond` them.  Doubles are compared by
their mantissas and exponents, which says the same as their units because a decoded double has all
53 bits in its mantissa unless its exponent is the least.

Main statements:

* `canonical_unpack`: a decoded double has the form that comparison relies on;
* `le_iff`, `lt_iff` and `beq_iff`: doubles are ordered as their units, and what is not a number is
  not ordered at all;
* `le_trans`, `le_total` and `isFinite_of_le`: what trees need of the order.
-/

namespace QuadCode.Double

open Float.Model
open Float.Model.UnpackedFloat (Sign)

/-- How many units `m * 2 ^ e` is. -/
def size (m : ℕ) (e : ℤ) : ℕ :=
  m * 2 ^ (e + 1074).toNat

/-- The size of `2 ^ 1024`, which would come next after the greatest finite double. -/
def beyond : ℕ :=
  size (2 ^ 52) 972

/-- The units of a decoded double. -/
def unitsOf : UnpackedFloat → ℤ
  | .infinity s => s.apply beyond
  | .notANumber => 0
  | .zero _ => 0
  | .finite s m e _ => s.apply (size m e)

/-- The units of a double. -/
def units (x : Float) : ℤ :=
  unitsOf x.toModel.unpack

/-- The form of a decoded double: its mantissa has 53 bits, or fewer at the least exponent. -/
def Canonical : UnpackedFloat → Prop
  | .finite _ m e _ => m < 2 ^ 53 ∧ -1074 ≤ e ∧ e ≤ 971 ∧ (2 ^ 52 ≤ m ∨ e = -1074)
  | _ => True

theorem size_pos {m : ℕ} {e : ℤ} (h : 0 < m) : 0 < size m e :=
  Nat.mul_pos h (Nat.two_pow_pos _)

theorem beyond_pos : 0 < beyond :=
  size_pos (by decide)

/-- A greater exponent makes a greater size, since its mantissa has all its bits. -/
theorem size_lt_of_exponent_lt {m m' : ℕ} {e e' : ℤ} (hm : m < 2 ^ 53) (he : -1074 ≤ e)
    (hm' : 2 ^ 52 ≤ m' ∨ e' = -1074) (h : e < e') : size m e < size m' e' := by
  have hfull : 2 ^ 52 ≤ m' := by
    rcases hm' with hfull | rfl
    · exact hfull
    · omega
  have hpow : 2 ^ ((e + 1074).toNat + 1) ≤ 2 ^ (e' + 1074).toNat :=
    Nat.pow_le_pow_right Nat.two_pos (by omega)
  calc
    size m e < 2 ^ 53 * 2 ^ (e + 1074).toNat := Nat.mul_lt_mul_of_pos_right hm (Nat.two_pow_pos _)
    _ = 2 ^ 52 * 2 ^ ((e + 1074).toNat + 1) := by ring
    _ ≤ m' * 2 ^ (e' + 1074).toNat := Nat.mul_le_mul hfull hpow
    _ = size m' e' := rfl

theorem size_lt_beyond {m : ℕ} {e : ℤ} (hm : m < 2 ^ 53) (he : -1074 ≤ e) (he' : e ≤ 971) :
    size m e < beyond :=
  size_lt_of_exponent_lt hm he (Or.inl le_rfl) (by omega)

theorem compare_size {m m' : ℕ} {e e' : ℤ} (hm : m < 2 ^ 53) (hm' : m' < 2 ^ 53) (he : -1074 ≤ e)
    (he' : -1074 ≤ e') (h : 2 ^ 52 ≤ m ∨ e = -1074) (h' : 2 ^ 52 ≤ m' ∨ e' = -1074) :
    (compare e e').then (compare m m') = compare (size m e : ℤ) (size m' e') := by
  rcases lt_trichotomy e e' with hlt | rfl | hgt
  · have hsize : (size m e : ℤ) < size m' e' := by
      exact_mod_cast size_lt_of_exponent_lt hm he h' hlt
    rw [compare_lt_iff_lt.mpr hlt, compare_lt_iff_lt.mpr hsize]
    rfl
  · have hscale {a b : ℕ} (hab : a < b) : (size a e : ℤ) < size b e := by
      exact_mod_cast Nat.mul_lt_mul_of_pos_right hab (Nat.two_pow_pos (e + 1074).toNat)
    rw [compare_eq_iff_eq.mpr (rfl : e = e), Ordering.then]
    rcases lt_trichotomy m m' with hlt | rfl | hgt
    · rw [compare_lt_iff_lt.mpr hlt, compare_lt_iff_lt.mpr (hscale hlt)]
    · rw [compare_eq_iff_eq.mpr rfl, compare_eq_iff_eq.mpr rfl]
    · rw [compare_gt_iff_gt.mpr hgt, compare_gt_iff_gt.mpr (hscale hgt)]
  · have hsize : (size m' e' : ℤ) < size m e := by
      exact_mod_cast size_lt_of_exponent_lt hm' he' h hgt
    rw [compare_gt_iff_gt.mpr hgt, compare_gt_iff_gt.mpr hsize]
    rfl

theorem compare_neg_neg (x y : ℤ) : compare (-x) (-y) = (compare x y).swap := by
  rcases lt_trichotomy x y with hlt | rfl | hgt
  · rw [compare_lt_iff_lt.mpr hlt, compare_gt_iff_gt.mpr (neg_lt_neg hlt)]
    rfl
  · rw [compare_eq_iff_eq.mpr rfl, compare_eq_iff_eq.mpr rfl]
    rfl
  · rw [compare_gt_iff_gt.mpr hgt, compare_lt_iff_lt.mpr (neg_lt_neg hgt)]
    rfl

theorem unitsOf_negative_lt {m : ℕ} {e : ℤ} (hm : 0 < m) :
    unitsOf (.finite .negative m e hm) < 0 :=
  neg_lt_zero.mpr (Int.natCast_pos.mpr (size_pos hm))

theorem unitsOf_positive_pos {m : ℕ} {e : ℤ} (hm : 0 < m) :
    0 < unitsOf (.finite .positive m e hm) :=
  Int.natCast_pos.mpr (size_pos hm)

theorem unitsOf_lt_beyond {u : UnpackedFloat} (hu : Canonical u) (hfin : u.isFinite = true) :
    -beyond < unitsOf u ∧ unitsOf u < beyond := by
  have hpos : (0 : ℤ) < beyond := Int.natCast_pos.mpr beyond_pos
  cases u with
  | infinity s => cases hfin
  | notANumber => cases hfin
  | zero s => exact ⟨neg_lt_zero.mpr hpos, hpos⟩
  | finite s m e hm =>
      have hlt : (size m e : ℤ) < beyond := Int.ofNat_lt.mpr (size_lt_beyond hu.1 hu.2.1 hu.2.2.1)
      cases s with
      | negative => exact ⟨neg_lt_neg hlt, (unitsOf_negative_lt hm).trans hpos⟩
      | positive => exact ⟨(neg_lt_zero.mpr hpos).trans (unitsOf_positive_pos hm), hlt⟩

/-- Decoded doubles are compared as their units. -/
theorem compare_eq {a b : UnpackedFloat} (ha : Canonical a) (hb : Canonical b)
    (hna : a.isNaN = false) (hnb : b.isNaN = false) :
    a.compare b = some (compare (unitsOf a) (unitsOf b)) := by
  have hlt {x y : ℤ} (h : x < y) : some Ordering.lt = some (compare x y) := by
    rw [compare_lt_iff_lt.mpr h]
  have hgt {x y : ℤ} (h : y < x) : some Ordering.gt = some (compare x y) := by
    rw [compare_gt_iff_gt.mpr h]
  have heq {x y : ℤ} (h : x = y) : some Ordering.eq = some (compare x y) := by
    rw [compare_eq_iff_eq.mpr h]
  cases a with
  | notANumber => cases hna
  | infinity s =>
      cases b with
      | notANumber => cases hnb
      | infinity s' =>
          have hpos : (0 : ℤ) < beyond := Int.natCast_pos.mpr beyond_pos
          have hfar : -(beyond : ℤ) < beyond := (neg_lt_zero.mpr hpos).trans hpos
          cases s <;> cases s'
          · exact heq rfl
          · exact hlt hfar
          · exact hgt hfar
          · exact heq rfl
      | zero s' | finite s' m' e' hm' =>
          obtain ⟨hlow, hhigh⟩ := unitsOf_lt_beyond hb rfl
          cases s
          · exact hlt hlow
          · exact hgt hhigh
  | zero s =>
      cases b with
      | notANumber => cases hnb
      | infinity s' =>
          obtain ⟨hlow, hhigh⟩ := unitsOf_lt_beyond ha rfl
          cases s'
          · exact hgt hlow
          · exact hlt hhigh
      | zero s' => exact heq rfl
      | finite s' m' e' hm' =>
          cases s'
          · exact hgt (unitsOf_negative_lt hm')
          · exact hlt (unitsOf_positive_pos hm')
  | finite s m e hm =>
      cases b with
      | notANumber => cases hnb
      | infinity s' =>
          obtain ⟨hlow, hhigh⟩ := unitsOf_lt_beyond ha rfl
          cases s'
          · cases s <;> exact hgt hlow
          · cases s <;> exact hlt hhigh
      | zero s' =>
          cases s
          · exact hlt (unitsOf_negative_lt hm)
          · exact hgt (unitsOf_positive_pos hm)
      | finite s' m' e' hm' =>
          have hsizes := compare_size ha.1 hb.1 ha.2.1 hb.2.1 ha.2.2.2 hb.2.2.2
          cases s <;> cases s'
          · rw [UnpackedFloat.compare, hsizes, ← compare_neg_neg]
            rfl
          · exact hlt ((unitsOf_negative_lt hm).trans (unitsOf_positive_pos hm'))
          · exact hgt ((unitsOf_negative_lt hm').trans (unitsOf_positive_pos hm))
          · rw [UnpackedFloat.compare, hsizes]
            rfl

theorem toNat_one_append (m : BitVec 52) : (1#1 ++ m).toNat = 2 ^ 52 + m.toNat := by
  rw [BitVec.toNat_append, ← Nat.shiftLeft_add_eq_or_of_lt m.isLt]
  rfl

/-- A decoded double has the form that comparison relies on. -/
theorem canonical_unpack (x : Float.Model) : Canonical x.unpack := by
  have hm := (@UnpackedFloat.unpackMantissa .binary64 x.toBits.toBitVec).isLt
  have he := (@UnpackedFloat.unpackExponent .binary64 x.toBits.toBitVec).isLt
  have happend := toNat_one_append (@UnpackedFloat.unpackMantissa .binary64 x.toBits.toBitVec)
  have hbias : Format.binary64.exponentBias = 1023 := rfl
  unfold Float.Model.unpack UnpackedFloat.unpack
  dsimp only at *
  split
  · split <;> trivial
  · next hinfinite =>
    split
    · next hzero =>
      split
      · trivial
      · rw [hzero]
        exact ⟨by omega, by decide, by decide, Or.inr (by decide)⟩
    · next hzero =>
      have hlow : (@UnpackedFloat.unpackExponent .binary64 x.toBits.toBitVec).toNat ≠ 0 :=
        fun h => hzero (BitVec.eq_of_toNat_eq h)
      have hhigh : (@UnpackedFloat.unpackExponent .binary64 x.toBits.toBitVec).toNat ≠ 2047 :=
        fun h => hinfinite (BitVec.eq_of_toNat_eq h)
      exact ⟨by omega, by omega, by omega, Or.inl (by omega)⟩

theorem le_iff_unitsOf {a b : UnpackedFloat} (ha : Canonical a) (hb : Canonical b) :
    a.le b = true ↔ a.isNaN = false ∧ b.isNaN = false ∧ unitsOf a ≤ unitsOf b := by
  cases hna : a.isNaN with
  | true =>
      have hle : a.le b = false := by
        cases a <;> cases hna
        rfl
      rw [hle]
      constructor
      · intro h
        cases h
      · intro h
        cases h.1
  | false =>
      cases hnb : b.isNaN with
      | true =>
          have hle : a.le b = false := by
            cases b <;> cases hnb
            cases a <;> rfl
          rw [hle]
          constructor
          · intro h
            cases h
          · intro h
            cases h.2.1
      | false =>
          rw [UnpackedFloat.le, compare_eq ha hb hna hnb, Option.any_some, Std.isLE_compare]
          exact ⟨fun h => ⟨rfl, rfl, h⟩, fun h => h.2.2⟩

/-- What a comparison tells of two decoded doubles it tells of their units. -/
theorem compare_eq_some_iff {a b : UnpackedFloat} (ha : Canonical a) (hb : Canonical b)
    {o : Ordering} {P : Prop} (hP : compare (unitsOf a) (unitsOf b) = o ↔ P) :
    a.compare b = some o ↔ a.isNaN = false ∧ b.isNaN = false ∧ P := by
  cases hna : a.isNaN with
  | true =>
      have hnone : a.compare b = none := by
        cases a <;> cases hna
        rfl
      simp [hnone]
  | false =>
      cases hnb : b.isNaN with
      | true =>
          have hnone : a.compare b = none := by
            cases b <;> cases hnb
            cases a <;> rfl
          simp [hnone]
      | false => simp [compare_eq ha hb hna hnb, hP]

/-- Doubles are ordered as their units. -/
theorem le_iff {x y : Float} :
    x ≤ y ↔ x.isNaN = false ∧ y.isNaN = false ∧ units x ≤ units y := by
  have hle : x ≤ y ↔ x.toModel.unpack.le y.toModel.unpack = true := decide_eq_true_iff
  exact hle.trans (le_iff_unitsOf (canonical_unpack x.toModel) (canonical_unpack y.toModel))

/-- One double is less than another if it has fewer units, and both are numbers. -/
theorem lt_iff {x y : Float} :
    x < y ↔ x.isNaN = false ∧ y.isNaN = false ∧ units x < units y := by
  have hlt : x < y ↔ x.toModel.unpack.compare y.toModel.unpack = some .lt :=
    decide_eq_true_iff.trans beq_iff_eq
  rw [hlt]
  exact compare_eq_some_iff (canonical_unpack x.toModel) (canonical_unpack y.toModel)
    compare_lt_iff_lt

/-- Doubles are equal as numbers if they have equal units. -/
theorem beq_iff {x y : Float} :
    (x == y) = true ↔ x.isNaN = false ∧ y.isNaN = false ∧ units x = units y := by
  have hbeq : (x == y) = (x.toModel.unpack.compare y.toModel.unpack == some .eq) := rfl
  rw [hbeq, beq_iff_eq]
  exact compare_eq_some_iff (canonical_unpack x.toModel) (canonical_unpack y.toModel)
    compare_eq_iff_eq

theorem le_trans {x y z : Float} (hxy : x ≤ y) (hyz : y ≤ z) : x ≤ z := by
  obtain ⟨hx, -, hxy⟩ := le_iff.mp hxy
  obtain ⟨-, hz, hyz⟩ := le_iff.mp hyz
  exact le_iff.mpr ⟨hx, hz, hxy.trans hyz⟩

/-- Two numbers can always be put in order. -/
theorem le_total {x y : Float} (hx : x.isNaN = false) (hy : y.isNaN = false) : x ≤ y ∨ y ≤ x :=
  (Int.le_total (units x) (units y)).imp (fun h => le_iff.mpr ⟨hx, hy, h⟩)
    fun h => le_iff.mpr ⟨hy, hx, h⟩

theorem lt_of_lt_of_le {x y z : Float} (hxy : x < y) (hyz : y ≤ z) : x < z := by
  obtain ⟨hx, -, hxy⟩ := lt_iff.mp hxy
  obtain ⟨-, hz, hyz⟩ := le_iff.mp hyz
  exact lt_iff.mpr ⟨hx, hz, hxy.trans_le hyz⟩

theorem lt_of_le_of_lt {x y z : Float} (hxy : x ≤ y) (hyz : y < z) : x < z := by
  obtain ⟨hx, -, hxy⟩ := le_iff.mp hxy
  obtain ⟨-, hz, hyz⟩ := lt_iff.mp hyz
  exact lt_iff.mpr ⟨hx, hz, hxy.trans_lt hyz⟩

theorem not_lt_of_le {x y : Float} (h : x ≤ y) : ¬ y < x := by
  intro hlt
  obtain ⟨-, -, hle⟩ := le_iff.mp h
  obtain ⟨-, -, hlt⟩ := lt_iff.mp hlt
  omega

/-- A number is less than another one, or it is not less. -/
theorem lt_or_le {x y : Float} (hx : x.isNaN = false) (hy : y.isNaN = false) : x < y ∨ y ≤ x :=
  (Int.lt_or_le (units x) (units y)).imp (fun h => lt_iff.mpr ⟨hx, hy, h⟩)
    fun h => le_iff.mpr ⟨hy, hx, h⟩

/-- Numbers that are equal compare alike. -/
theorem le_congr_right {x y y' : Float} (h : (y == y') = true) : x ≤ y ↔ x ≤ y' := by
  obtain ⟨hy, hy', hunits⟩ := beq_iff.mp h
  rw [le_iff, le_iff, hy, hy', hunits]

theorem le_congr_left {x x' y : Float} (h : (x == x') = true) : x ≤ y ↔ x' ≤ y := by
  obtain ⟨hx, hx', hunits⟩ := beq_iff.mp h
  rw [le_iff, le_iff, hx, hx', hunits]

theorem isFinite_iff {x : Float} :
    x.isFinite = true ↔ x.isNaN = false ∧ -beyond < units x ∧ units x < beyond := by
  have hcanonical := canonical_unpack x.toModel
  change x.toModel.unpack.isFinite = true ↔
    x.toModel.unpack.isNaN = false ∧ -beyond < unitsOf x.toModel.unpack ∧
      unitsOf x.toModel.unpack < beyond
  cases hx : x.toModel.unpack with
  | notANumber =>
      constructor
      · intro h
        cases h
      · intro h
        cases h.1
  | infinity s =>
      constructor
      · intro h
        cases h
      · intro h
        obtain ⟨-, hlow, hhigh⟩ := h
        cases s with
        | negative => exact absurd hlow (lt_irrefl _)
        | positive => exact absurd hhigh (lt_irrefl _)
  | zero s | finite s m e hm =>
      rw [hx] at hcanonical
      exact ⟨fun _ => ⟨rfl, unitsOf_lt_beyond hcanonical rfl⟩, fun _ => rfl⟩

theorem units_zero : units 0.0 = 0 :=
  rfl

theorem units_one : units 1.0 = 2 ^ 1074 := by
  decide +kernel

/-- What lies between zero and a finite double is finite. -/
theorem isFinite_of_le {x y : Float} (hlow : 0.0 ≤ x) (h : x ≤ y) (hy : y.isFinite = true) :
    x.isFinite = true := by
  have hpos := beyond_pos
  obtain ⟨-, hx, hlow⟩ := le_iff.mp hlow
  obtain ⟨-, -, hxy⟩ := le_iff.mp h
  obtain ⟨-, -, hy⟩ := isFinite_iff.mp hy
  rw [units_zero] at hlow
  exact isFinite_iff.mpr ⟨hx, by omega, by omega⟩

end QuadCode.Double
