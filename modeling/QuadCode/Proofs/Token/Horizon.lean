import QuadCode.Proofs.Double.Products
import QuadCode.Proofs.Double.Values
import QuadCode.Proofs.Token.ObservedRange

/-!
# Windows against a horizon

Against a horizon every bound of a window is multiplied by a factor, the side of the region over the
length of the horizon, and the tree refuses what lies outside its region then.  Both the factor and
the product are rounded, and a product is inside the region if it is rounded to a bound of the
region or between them.  So the bounds that a horizon admits are given by one exact product, of the
time and the rounded factor.  They are the times from zero to the horizon if the factor is exact and
more than a half.  If it is rounded, then a time below the horizon is still admitted, but the
horizon itself may be refused, and the very next time after it may be admitted.

Main definitions:

* `Admits`: which times a horizon admits, by an exact product;
* `HorizonRange`: how these are related to the times from zero to the horizon.

Main statements:

* `Ratio.inRegion_iff`: where a product has to lie to be rounded into the region;
* `horizonRange`: the times that are admitted;
* `WindowEncoder.encode_horizon`: which windows with finite bounds are encoded.
-/

namespace QuadCode

open Double

/-- A number that is rounded to a double or below it. -/
def RoundsWithin (x : Float) (q : ℚ) : Prop :=
  Reaches (units x).toNat (q * 2 ^ 1074)

/-- A time that a horizon admits: its product with the factor is at most half the least double below
zero, and at most half a step of the side of the region above it. -/
structure Admits (size length t : Float) : Prop where
  factor : (size / length).isFinite = true
  low : -(2 ^ (-1074 : ℤ) / 2) ≤ value t * value (size / length)
  high : RoundsWithin size (value t * value (size / length))

/-- The factor is finite and in the normal range, where it is rounded by a `2 ^ 53`-th part. -/
structure Steady (size length : Float) : Prop where
  finite : (size / length).isFinite = true
  normal : 2 ^ (-1022 : ℤ) ≤ value size / value length

/-- The times that a horizon admits, compared with those from zero to the horizon. -/
structure HorizonRange (size length : Float) : Prop where
  /-- The times before the horizon are admitted. -/
  before : Steady size length → ∀ {t : Float}, t.isFinite = true → 0.0 ≤ t → t < length →
    Admits size length t
  /-- The horizon itself is admitted if the side of the region is a power of two. -/
  whole : Steady size length → (∃ e : ℤ, value size = 2 ^ e) → Admits size length length
  /-- After the horizon at most one more time is admitted. -/
  next : Steady size length → 2 ^ (-1022 : ℤ) ≤ value size → ∀ {t t' : Float}, t.isFinite = true →
    length < t' → t' < t → ¬ Admits size length t
  /-- With an exact factor no time after the horizon is admitted. -/
  exact : Exactly (size / length) (value size / value length) → 2 ^ (-1022 : ℤ) ≤ value size →
    ∀ {t : Float}, t.isFinite = true →
      (Admits size length t ↔
        -(2 ^ (-1074 : ℤ) / 2) ≤ value t * value (size / length) ∧ t ≤ length)
  /-- With an exact factor of more than a half, the times from zero to the horizon are admitted and
  no others. -/
  calibrated : Exactly (size / length) (value size / value length) →
    1 / 2 < value (size / length) →
    ∀ {t : Float}, t.isFinite = true → (Admits size length t ↔ 0.0 ≤ t ∧ t ≤ length)

/-- Where a product lies that is a coordinate of the region. -/
def InRegion (size x : Float) : Prop :=
  x.isFinite = true ∧ 0.0 ≤ x ∧ x ≤ size

theorem inRegion_iff {size x : Float} (hsize : size.isFinite = true) (hx : x.isNaN = false) :
    InRegion size x ↔ 0 ≤ units x ∧ units x ≤ units size := by
  have hnumber := (isFinite_iff.mp hsize).1
  constructor
  · rintro ⟨-, hlow, hhigh⟩
    exact ⟨(le_iff.mp hlow).2.2, (le_iff.mp hhigh).2.2⟩
  · rintro ⟨hlow, hhigh⟩
    have hlow : 0.0 ≤ x := le_iff.mpr ⟨by decide, hx, hlow⟩
    have hhigh : x ≤ size := le_iff.mpr ⟨hx, hnumber, hhigh⟩
    exact ⟨isFinite_of_le hlow hhigh hsize, hlow, hhigh⟩

/-- The map of times onto a region, measured against a horizon. -/
def horizonMap (size length : Float) : TimeMap :=
  ⟨0.0, size / length⟩

/-- Where a window goes. -/
def Window.scaled (m : TimeMap) (w : Window) : Location :=
  ⟨m.apply w.start, m.apply w.finish⟩

/-- The side of a region, the length of a horizon and the factor between them, in units. -/
structure Ratio (size length : Float) (s n k : ℕ) : Prop where
  side : Counts size s
  span : Counts length n
  factor : Counts (size / length) k
  rounded : k = nearestUnits ((s : ℚ) / n * 2 ^ 1074)
  side_pos : 0 < s
  span_pos : 0 < n

/-- A side, a horizon and their factor, if that is finite. -/
theorem exists_ratio {size length : Float} {s n : ℕ} (hsize : Counts size s) (hs : 0 < s)
    (hlength : Counts length n) (hn : 0 < n) (hfactor : (size / length).isFinite = true) :
    ∃ k, Ratio size length s n k :=
  ⟨_, hsize, hlength, hsize.div hlength hn ((isFinite_div_iff hsize hlength hn).mp hfactor), rfl, hs,
    hn⟩

namespace Ratio

variable {size length t : Float} {s n k : ℕ}

theorem value_factor (h : Ratio size length s n k) : value (size / length) = k / 2 ^ 1074 := by
  rw [value, h.factor.2, Int.cast_natCast]

theorem factor_nonneg (h : Ratio size length s n k) : 0 ≤ value (size / length) := by
  rw [h.value_factor]
  exact div_nonneg k.cast_nonneg (pow_nonneg zero_le_two _)

/-- Which times are admitted, in units. -/
theorem admits_iff (h : Ratio size length s n k) :
    Admits size length t ↔ -(1 / 2) ≤ units t * value (size / length) ∧
      Reaches s (units t * value (size / length)) := by
  have hside : (units size).toNat = s := by rw [h.side.2, Int.toNat_natCast]
  have hhigh : RoundsWithin size (value t * value (size / length)) ↔
      Reaches s (units t * value (size / length)) := by
    rw [RoundsWithin, mul_right_comm, value_mul, hside]
  rw [← hhigh, ← half_unit_le_iff]
  exact ⟨fun h => ⟨h.low, h.high⟩, fun h' => ⟨h.factor.1, h'.1, h'.2⟩⟩

/-- **A time goes to the region if and only if it is admitted.** -/
theorem inRegion_iff (h : Ratio size length s n k) (ht : t.isFinite = true) :
    InRegion size ((horizonMap size length).apply t) ↔ Admits size length t := by
  obtain ⟨hfinite, hunits⟩ := units_sub_zero ht
  have hrange : s < beyond := h.side.holds.lt_beyond
  have hfactor := h.factor_nonneg
  change InRegion size ((t - 0.0) * (size / length)) ↔ _
  rw [QuadCode.inRegion_iff h.side.1 (isNaN_mul hfinite h.factor.1), h.admits_iff, h.side.2]
  rcases lt_or_ge (units t) 0 with hneg | hnonneg
  · -- A negative product is rounded to zero or to a negative double.
    obtain ⟨a, ha⟩ : ∃ a : ℕ, units t = -a := ⟨(units t).natAbs, by omega⟩
    have hproduct := units_mul_of_neg hfinite (hunits.trans ha) h.factor
    rw [mul_div_assoc, ← h.value_factor] at hproduct
    have hsize := mul_nonneg (a.cast_nonneg (α := ℚ)) hfactor
    have hzero := nearestUnits_le_zero_iff hsize
    rw [hproduct, ha, Int.cast_neg, Int.cast_natCast, neg_mul, neg_le_neg_iff, ← hzero]
    constructor
    · rintro ⟨hlow, -⟩
      exact ⟨by omega, reaches_of_le ((neg_nonpos.mpr hsize).trans s.cast_nonneg)⟩
    · rintro ⟨hlow, -⟩
      omega
  · obtain ⟨a, ha⟩ : ∃ a : ℕ, units t = a := ⟨(units t).natAbs, by omega⟩
    have hcounts : Counts (t - 0.0) a := ⟨hfinite, hunits.trans ha⟩
    have hproduct := hcounts.units_mul h.factor
    rw [mul_div_assoc, ← h.value_factor] at hproduct
    have hsize := mul_nonneg (a.cast_nonneg (α := ℚ)) hfactor
    rw [hproduct, ha, Int.cast_natCast, ← h.side.fits.nearestUnits_le_iff hsize]
    constructor
    · rintro ⟨-, hhigh⟩
      exact ⟨by linarith, by omega⟩
    · rintro ⟨-, hhigh⟩
      omega

/-- The values of a region and a horizon are in the ratio of their units. -/
theorem value_div (h : Ratio size length s n k) : value size / value length = s / n := by
  rw [value, value, h.side.2, h.span.2, Int.cast_natCast, Int.cast_natCast,
    div_div_div_cancel_right₀ (pow_ne_zero _ two_ne_zero)]

/-- A steady factor is rounded by a `2 ^ 53`-th part at most. -/
theorem factor_near (h : Ratio size length s n k) (hsteady : Steady size length) :
    value (size / length) ≤ s / n * (1 + 1 / 2 ^ 53) ∧
      s / n * (1 - 1 / 2 ^ 53) ≤ value (size / length) := by
  have hpos : (0 : ℚ) < 2 ^ 1074 := pow_pos two_pos _
  have hnormal : (2 : ℚ) ^ 52 ≤ s / n * 2 ^ 1074 := by
    have hratio := mul_le_mul_of_nonneg_right hsteady.normal hpos.le
    rw [h.value_div] at hratio
    rwa [zpow_mul_units (g := 52) rfl] at hratio
  obtain ⟨hhigh, hlow⟩ := nearestUnits_relative hnormal
  rw [← h.rounded, mul_right_comm] at hhigh hlow
  rw [h.value_factor]
  exact ⟨(div_le_iff₀ hpos).mpr hhigh, (le_div_iff₀ hpos).mpr hlow⟩

/-- As many times the ratio of a region and a horizon as the horizon has units. -/
theorem span_mul (h : Ratio size length s n k) : (n : ℚ) * (s / n) = s :=
  mul_div_cancel₀ _ (Nat.cast_ne_zero.mpr h.span_pos.ne')

theorem ratio_pos (h : Ratio size length s n k) : (0 : ℚ) < s / n :=
  div_pos (Nat.cast_pos.mpr h.side_pos) (Nat.cast_pos.mpr h.span_pos)

/-- A time of so many units before the horizon is not taken beyond the region. -/
theorem reaches_of_lt (h : Ratio size length s n k) (hsteady : Steady size length) {a : ℕ}
    (ha : Fits a) (hlt : a < n) : Reaches s (a * value (size / length)) := by
  have hless := ha.le_mul_of_lt h.span.fits hlt
  have hratio := h.ratio_pos
  refine reaches_of_le ?_
  calc
    (a : ℚ) * value (size / length) ≤ a * (s / n * (1 + 1 / 2 ^ 53)) :=
      mul_le_mul_of_nonneg_left (h.factor_near hsteady).1 a.cast_nonneg
    _ ≤ n * (1 - 1 / 2 ^ 53) * (s / n * (1 + 1 / 2 ^ 53)) :=
      mul_le_mul_of_nonneg_right hless (mul_nonneg hratio.le (by norm_num))
    _ = n * (s / n) * ((1 - 1 / 2 ^ 53) * (1 + 1 / 2 ^ 53)) := by ring
    _ ≤ s := by
      rw [h.span_mul]
      exact mul_le_of_le_one_right s.cast_nonneg (by norm_num)

/-- The horizon is not taken beyond a region whose side is a power of two. -/
theorem reaches_span (h : Ratio size length s n k) (hsteady : Steady size length) {m : ℕ}
    (hside : s = 2 ^ m) : Reaches s (n * value (size / length)) := by
  have hnear := mul_le_mul_of_nonneg_left (h.factor_near hsteady).1 (n.cast_nonneg (α := ℚ))
  rw [← mul_assoc, h.span_mul, hside, Nat.cast_pow, Nat.cast_ofNat] at hnear
  rw [hside]
  exact reaches_two_pow hnear

/-- A time that is not the next one after the horizon is taken beyond the region. -/
theorem not_reaches_of_lt (h : Ratio size length s n k) (hsteady : Steady size length)
    (hs : 2 ^ 52 ≤ s) {a b : ℕ} (ha : Fits a) (hb : Fits b) (hnb : n < b) (hba : b < a) :
    ¬ Reaches s (a * value (size / length)) := by
  intro hreach
  have hratio := h.ratio_pos
  have hbeyond : (s : ℚ) * (1 + 1 / 2 ^ 53) < a * value (size / length) := by
    calc
      (s : ℚ) * (1 + 1 / 2 ^ 53) = (n : ℚ) * (1 + 1 / 2 ^ 53) * (s / n) := by
        rw [mul_right_comm, h.span_mul]
      _ < (b : ℚ) * (s / n) := mul_lt_mul_of_pos_right (h.span.fits.mul_lt_of_lt hb hnb) hratio
      _ ≤ (a : ℚ) * (1 - 1 / 2 ^ 53) * (s / n) :=
        mul_le_mul_of_nonneg_right (hb.le_mul_of_lt ha hba) hratio.le
      _ = (a : ℚ) * (s / n * (1 - 1 / 2 ^ 53)) := by ring
      _ ≤ a * value (size / length) :=
        mul_le_mul_of_nonneg_left (h.factor_near hsteady).2 a.cast_nonneg
  exact (hreach.le_relative hs).not_gt hbeyond

/-- With an exact factor, a time is taken beyond the region if it is after the horizon: either the
steps of the region are small enough in proportion, or they are units and a unit of time is taken
further than half a unit. -/
theorem reaches_iff_le (h : Ratio size length s n k) (hroom : 2 ^ 52 ≤ s ∨ (1 / 2 : ℚ) < s / n)
    (ht : t.isFinite = true) : Reaches s (units t * (s / n)) ↔ units t ≤ n := by
  have hratio := h.ratio_pos
  constructor
  · intro hreach
    by_contra hafter
    obtain ⟨a, ha⟩ : ∃ a : ℕ, units t = a := ⟨(units t).natAbs, by omega⟩
    rw [ha, Int.cast_natCast] at hreach
    have hlt : n < a := by omega
    have hcounts : Counts t a := ⟨ht, ha⟩
    by_cases hs : 2 ^ 52 ≤ s
    · have hless := mul_lt_mul_of_pos_right (h.span.fits.mul_lt_of_lt hcounts.fits hlt) hratio
      rw [mul_right_comm, h.span_mul] at hless
      exact (hreach.le_relative hs).not_gt hless
    · have hgrain : grain s = 0 := grain_of_lt (by omega)
      have hle := hreach.le
      rw [hgrain, pow_zero] at hle
      have hstep : ((n : ℚ) + 1) * (s / n) ≤ a * (s / n) :=
        mul_le_mul_of_nonneg_right (by exact_mod_cast hlt) hratio.le
      rw [add_mul, h.span_mul, one_mul] at hstep
      linarith [hroom.resolve_left hs]
  · intro hle
    have hcast : (units t : ℚ) ≤ n := by exact_mod_cast hle
    exact reaches_of_le ((mul_le_mul_of_nonneg_right hcast hratio.le).trans h.span_mul.le)

end Ratio

section

variable {size length : Float} {s n : ℕ}

/-- Where there is no finite factor no time goes to the region, and none is admitted. -/
theorem inRegion_iff_admits (hsize : Counts size s) (hs : 0 < s) (hlength : Counts length n)
    (hn : 0 < n) {t : Float} (ht : t.isFinite = true) :
    InRegion size ((horizonMap size length).apply t) ↔ Admits size length t := by
  by_cases hfactor : (size / length).isFinite = true
  · obtain ⟨k, h⟩ := exists_ratio hsize hs hlength hn hfactor
    exact h.inRegion_iff ht
  · exact iff_of_false (fun h => hfactor (isFinite_of_mul h.1)) fun h => hfactor h.factor

/-- The place of a window is accepted if both of its bounds are admitted. -/
theorem fits_scaled_iff (hsize : Counts size s) (hs : 0 < s) (hlength : Counts length n)
    (hn : 0 < n) {w : Window} (hw : w.isFinite = true) :
    (w.scaled (horizonMap size length)).fits size = true ↔
      Admits size length w.start ∧ Admits size length w.finish := by
  obtain ⟨hstart, hfinish⟩ := Bool.and_eq_true_iff.mp hw
  rw [Location.fits_iff]
  exact and_congr (inRegion_iff_admits hsize hs hlength hn hstart)
    (inRegion_iff_admits hsize hs hlength hn hfinish)

/-- With a factor of more than a half, a unit below zero is taken further down than half a unit. -/
theorem neg_half_le_mul_iff {c : ℚ} (hc : 1 / 2 < c) {j : ℤ} : -(1 / 2) ≤ j * c ↔ 0 ≤ j := by
  constructor
  · intro hle
    by_contra hneg
    have hone : (j : ℚ) ≤ -1 := by exact_mod_cast (show j ≤ -1 by omega)
    have hproduct : (j : ℚ) * c ≤ -1 * c := mul_le_mul_of_nonneg_right hone (by linarith)
    linarith
  · intro hnonneg
    have hproduct : 0 ≤ (j : ℚ) * c := mul_nonneg (by exact_mod_cast hnonneg) (by linarith)
    linarith

/-- **The times that a horizon admits**, compared with those from zero to the horizon. -/
theorem horizonRange (hsize : Counts size s) (hs : 0 < s) (hlength : Counts length n) (hn : 0 < n) :
    HorizonRange size length := by
  have hratio := fun hfactor => exists_ratio hsize hs hlength hn hfactor
  have hzero {t : Float} (ht : t.isFinite = true) : 0.0 ≤ t ↔ 0 ≤ units t := by
    rw [le_iff, units_zero]
    exact ⟨fun h => h.2.2, fun h => ⟨by decide, (isFinite_iff.mp ht).1, h⟩⟩
  have hspan {t : Float} (ht : t.isFinite = true) : t ≤ length ↔ units t ≤ n := by
    rw [le_iff, hlength.2]
    exact ⟨fun h => h.2.2, fun h => ⟨(isFinite_iff.mp ht).1, (isFinite_iff.mp hlength.1).1, h⟩⟩
  constructor
  case before =>
    intro hsteady t ht hlow hhigh
    obtain ⟨k, h⟩ := hratio hsteady.finite
    obtain ⟨a, ha⟩ : ∃ a, Counts t a := ⟨_, counts_of_nonneg ht hlow⟩
    obtain ⟨-, -, hlt⟩ := lt_iff.mp hhigh
    rw [ha.2, hlength.2] at hlt
    rw [h.admits_iff, ha.2, Int.cast_natCast]
    have hnonneg := mul_nonneg (a.cast_nonneg (α := ℚ)) h.factor_nonneg
    exact ⟨by linarith, h.reaches_of_lt hsteady ha.fits (by omega)⟩
  case whole =>
    rintro hsteady ⟨e, he⟩
    obtain ⟨k, h⟩ := hratio hsteady.finite
    obtain ⟨m, hm⟩ := hsize.exists_two_pow hs he
    rw [h.admits_iff, hlength.2, Int.cast_natCast]
    have hnonneg := mul_nonneg (n.cast_nonneg (α := ℚ)) h.factor_nonneg
    exact ⟨by linarith, h.reaches_span hsteady hm⟩
  case next =>
    intro hsteady hnormal t t' ht hlow hhigh
    obtain ⟨k, h⟩ := hratio hsteady.finite
    obtain ⟨-, hnumber', hlow⟩ := lt_iff.mp hlow
    obtain ⟨-, -, hhigh⟩ := lt_iff.mp hhigh
    obtain ⟨-, -, hbound⟩ := isFinite_iff.mp ht
    rw [hlength.2] at hlow
    obtain ⟨a, ha⟩ : ∃ a : ℕ, units t = a := ⟨(units t).natAbs, by omega⟩
    obtain ⟨b, hb⟩ : ∃ b : ℕ, units t' = b := ⟨(units t').natAbs, by omega⟩
    have ht' : t'.isFinite = true := isFinite_iff.mpr ⟨hnumber', by omega, by omega⟩
    have hcounts : Counts t a := ⟨ht, ha⟩
    have hcounts' : Counts t' b := ⟨ht', hb⟩
    rw [h.admits_iff, ha, Int.cast_natCast]
    exact fun hadmits => h.not_reaches_of_lt hsteady (hsize.normal hnormal) hcounts.fits
      hcounts'.fits (by omega) (by omega) hadmits.2
  case exact =>
    intro hexact hnormal t ht
    obtain ⟨k, h⟩ := hratio hexact.finite
    have hfactor := hexact.eq.trans h.value_div
    rw [h.admits_iff, half_unit_le_iff, hfactor, h.reaches_iff_le (Or.inl (hsize.normal hnormal)) ht,
      hspan ht]
  case calibrated =>
    intro hexact hhalf t ht
    obtain ⟨k, h⟩ := hratio hexact.finite
    have hfactor := hexact.eq.trans h.value_div
    rw [hfactor] at hhalf
    rw [h.admits_iff, hfactor, h.reaches_iff_le (Or.inr hhalf) ht, hspan ht,
      neg_half_le_mul_iff hhalf, hzero ht]

end

namespace WindowEncoder

variable {settings : Settings} {base e : WindowEncoder} {length : Float} {windows : List Window}

/-- A horizon is accepted if it is a positive finite number, and then it is the scale. -/
theorem withHorizon_eq_ok_iff : base.withHorizon length = .ok e ↔
    (length.isFinite = true ∧ ¬ length ≤ 0.0) ∧ e = { base with scale := .horizon length } := by
  unfold withHorizon TimeScale.ofHorizon
  split
  · rename_i hrefused
    refine iff_of_false nofun fun h => ?_
    simp [h.1] at hrefused
  · rename_i haccepted
    have hlength : length.isFinite = true ∧ ¬ length ≤ 0.0 := by simpa using haccepted
    constructor
    · intro h
      cases h
      exact ⟨hlength, rfl⟩
    · rintro ⟨-, rfl⟩
      rfl

/-- **Which windows are encoded against a horizon.**  Windows with finite bounds are encoded if and
only if the horizon admits all their bounds: there is one view then, and it has a code for each
window.  Otherwise one of the windows with a bound that is not admitted is refused, as it was scaled.
The times that are admitted are nearly those from zero to the horizon. -/
theorem encode_horizon (hbase : ofSettings settings = .ok base)
    (hhorizon : base.withHorizon length = .ok e) (shift : Shift)
    (hfinite : ∀ w ∈ windows, w.isFinite = true) :
    ((∀ t ∈ boundsOf windows, Admits settings.rectSize length t) → ∃ codes : CodeMap,
      ({ e with shift }.encode windows).outcome = .ok ⟨[codes]⟩ ∧
        ∀ entity : Nat, codes[entity]?.isSome = true ↔ entity < windows.length) ∧
    ((∃ t ∈ boundsOf windows, ¬ Admits settings.rectSize length t) → ∃ w ∈ windows,
      ¬ (Admits settings.rectSize length w.start ∧ Admits settings.rectSize length w.finish) ∧
        ({ e with shift }.encode windows).outcome =
          .error (.outOfBounds ((horizonMap settings.rectSize length).apply w.start)
            ((horizonMap settings.rectSize length).apply w.finish) settings.rectSize)) ∧
    HorizonRange settings.rectSize length := by
  have hvalid := ofSettings_valid hbase
  obtain ⟨⟨hlength, hpos⟩, he⟩ := withHorizon_eq_ok_iff.mp hhorizon
  have hbase := ofSettings_eq_ok hbase
  subst hbase
  subst he
  obtain ⟨hside, hsidepos, -⟩ := Settings.parts_of_valid hvalid
  obtain ⟨s, hsize, hs⟩ := exists_counts_pos hside hsidepos
  obtain ⟨n, hspan, hn⟩ := exists_counts_pos hlength hpos
  have hfits := fun w hw => fits_scaled_iff hsize hs hspan hn (hfinite w hw)
  refine ⟨?_, ?_, horizonRange hsize hs hspan hn⟩
  · intro hadmits
    have hplaces : ∀ place ∈ windows.map (Window.scaled (horizonMap settings.rectSize length)),
        place.fits settings.rectSize = true := by
      intro place hplace
      obtain ⟨w, hw, rfl⟩ := List.mem_map.mp hplace
      exact (hfits w hw).mpr ⟨hadmits _ (mem_boundsOf.mpr ⟨w, hw, Or.inl rfl⟩),
        hadmits _ (mem_boundsOf.mpr ⟨w, hw, Or.inr rfl⟩)⟩
    obtain ⟨codes, houtcome, hview⟩ := encode_of_fits
      (e := { settings, scale := .horizon length, shift }) hvalid hfinite hplaces
    exact ⟨codes, houtcome, hview.entities⟩
  · rintro ⟨t, ht, hrefused⟩
    obtain ⟨w, hw, hbound⟩ := mem_boundsOf.mp ht
    have hmisfit : ¬ (w.scaled (horizonMap settings.rectSize length)).fits settings.rectSize =
        true := by
      rw [hfits w hw]
      rintro ⟨hstart, hfinish⟩
      rcases hbound with rfl | rfl
      · exact hrefused hstart
      · exact hrefused hfinish
    obtain ⟨place, hplace, hmisfit, houtcome⟩ := encode_of_not_fits
      (e := { settings, scale := .horizon length, shift }) hvalid hfinite
      (List.mem_map.mpr ⟨w, hw, rfl⟩) hmisfit
    obtain ⟨w, hw, rfl⟩ := List.mem_map.mp hplace
    exact ⟨w, hw, fun hadmits => hmisfit ((hfits w hw).mpr hadmits), houtcome⟩

/-- A horizon of 24 hours has a factor in the normal range for a region of side one. -/
theorem steady_day : Steady 1.0 24.0 := by
  refine ⟨by decide +kernel, ?_⟩
  have hunits : units 24.0 = 24 * 2 ^ 1074 := by decide +kernel
  have hday : value 24.0 = 24 := by
    rw [value, hunits, Int.cast_mul, Int.cast_pow, Int.cast_ofNat, Int.cast_ofNat,
      mul_div_cancel_right₀ _ (pow_ne_zero _ two_ne_zero)]
  rw [value_one, hday]
  calc
    (2 : ℚ) ^ (-1022 : ℤ) ≤ 2 ^ (-5 : ℤ) := zpow_le_zpow_right₀ one_le_two (by decide)
    _ ≤ 1 / 24 := by norm_num

/-- Two windows of one day are encoded against a horizon of 24 hours, at which one of them ends. -/
theorem encode_horizon_day :
    let windows : List Window := [⟨8.5, 12.0⟩, ⟨9.25, 24.0⟩]
    let base : WindowEncoder := { settings := {} }
    let e : WindowEncoder := { base with scale := .horizon 24.0 }
    ofSettings {} = .ok base ∧ base.withHorizon 24.0 = .ok e ∧
      (∀ w ∈ windows, w.isFinite = true) ∧ ∃ codes : CodeMap,
        (e.encode windows).outcome = .ok ⟨[codes]⟩ ∧
          ∀ entity : Nat, codes[entity]?.isSome = true ↔ entity < windows.length := by
  intro windows base e
  have hbase : ofSettings {} = .ok base := rfl
  have hhorizon : base.withHorizon 24.0 = .ok e :=
    withHorizon_eq_ok_iff.mpr ⟨by decide +kernel, rfl⟩
  have hfinite : ∀ w ∈ windows, w.isFinite = true := by decide +kernel
  obtain ⟨hencoded, -, hrange⟩ := encode_horizon hbase hhorizon .identity hfinite
  have hbounds : ∀ t ∈ boundsOf windows,
      t = 24.0 ∨ t.isFinite = true ∧ 0.0 ≤ t ∧ t < 24.0 := by
    simp only [boundsOf, windows, List.flatMap_cons, List.flatMap_nil, List.append_nil,
      List.cons_append, List.nil_append, List.forall_mem_cons]
    refine ⟨Or.inr ?_, Or.inr ?_, Or.inr ?_, Or.inl ?_, List.forall_mem_nil _⟩ <;> decide +kernel
  have hadmits : ∀ t ∈ boundsOf windows, Admits 1.0 24.0 t := by
    intro t ht
    rcases hbounds t ht with rfl | ⟨hfin, hlow, hhigh⟩
    · exact hrange.whole steady_day ⟨0, value_one⟩
    · exact hrange.before steady_day hfin hlow hhigh
  obtain ⟨codes, hcodes, hentities⟩ := hencoded hadmits
  exact ⟨hbase, hhorizon, hfinite, codes, hcodes, hentities⟩

/-- A region whose side is not a power of two. -/
def grand : Settings :=
  { rectSize := 1000.0 }

theorem valid_grand : grand.validate = .ok () :=
  Settings.valid_of_no_fault (by decide +kernel)

/-- **A horizon is not kept exactly**: in one region a window is refused that ends at the horizon, in
another one a window is encoded that ends after it. -/
theorem horizon_not_exact :
    (∃ base e, ofSettings grand = .ok base ∧ base.withHorizon 60.0 = .ok e ∧
      Window.isFinite ⟨0.0, 60.0⟩ = true ∧ (e.encode [⟨0.0, 60.0⟩]).outcome =
        .error (.outOfBounds 0.0 1000.0000000000001 1000.0)) ∧
    ∃ base e, ofSettings {} = .ok base ∧ base.withHorizon 24.0 = .ok e ∧
      Window.isFinite ⟨0.0, 24.000000000000004⟩ = true ∧ (24.0 : Float) < 24.000000000000004 ∧
        ∃ encoding, (e.encode [⟨0.0, 24.000000000000004⟩]).outcome = .ok encoding := by
  refine ⟨⟨{ settings := grand }, { settings := grand, scale := .horizon 60.0 }, ?_,
    withHorizon_eq_ok_iff.mpr ⟨by decide +kernel, rfl⟩, by decide +kernel, ?_⟩, ⟨{ settings := {} },
      { settings := {}, scale := .horizon 24.0 }, rfl, withHorizon_eq_ok_iff.mpr ⟨by decide +kernel, rfl⟩,
      by decide +kernel, by decide +kernel, ?_⟩⟩
  · rw [ofSettings, valid_grand]
    rfl
  · have hstart : (horizonMap 1000.0 60.0).apply 0.0 = 0.0 := by decide +kernel
    have hfinish : (horizonMap 1000.0 60.0).apply 60.0 = 1000.0000000000001 := by decide +kernel
    have hmisfit : ¬ (Window.scaled (horizonMap 1000.0 60.0) ⟨0.0, 60.0⟩).fits grand.rectSize =
        true := by decide +kernel
    have hwindow : ∀ w ∈ [Window.mk 0.0 60.0], w.isFinite = true := by decide +kernel
    obtain ⟨place, hplace, -, houtcome⟩ := encode_of_not_fits
      (e := { settings := grand, scale := .horizon 60.0 }) valid_grand hwindow
      (List.mem_singleton.mpr rfl) hmisfit
    obtain rfl := List.mem_singleton.mp hplace
    change _ = Except.error (Error.outOfBounds ((horizonMap 1000.0 60.0).apply 0.0)
      ((horizonMap 1000.0 60.0).apply 60.0) 1000.0) at houtcome
    rwa [hstart, hfinish] at houtcome
  · have hfits : ∀ place ∈ places { settings := {}, scale := .horizon 24.0 }
        [⟨0.0, 24.000000000000004⟩], place.fits ({} : Settings).rectSize = true := by
      decide +kernel
    obtain ⟨codes, houtcome, -⟩ := encode_of_fits rfl (by decide +kernel) hfits
    exact ⟨_, houtcome⟩

end WindowEncoder

end QuadCode
