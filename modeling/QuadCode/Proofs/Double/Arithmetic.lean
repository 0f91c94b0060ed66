import QuadCode.Proofs.Double.Shifts

/-!
# Arithmetic on doubles

Sums, differences and quotients of finite doubles that are not negative are the exact results,
rounded to doubles.  Rounding keeps the order and leaves doubles as they are, which is all that is
needed to see that the middle between two bounds never lies outside them, whatever is rounded on the
way.

Main statements:

* `unpack_pack`: encoding a double loses nothing;
* `Counts.add`, `Counts.sub`, `Counts.div` and `Counts.half`: the operations in units;
* `Counts.middle`: the middle of two bounds in units;
* `middle_bounds`: it lies between them.
-/

namespace QuadCode.Double

open Float.Model
open Float.Model.UnpackedFloat (Sign)

theorem unpack_normal (s : Sign) {e : BitVec 11} {m : BitVec 52} {k : ℤ} {n : ℕ} (hn : 0 < n)
    (hlow : 0 < e.toNat) (hhigh : e.toNat < 2047) (hk : (e.toNat : ℤ) - 1075 = k)
    (hm : 2 ^ 52 + m.toNat = n) :
    UnpackedFloat.unpack .binary64 (UnpackedFloat.packComponents .binary64 s e m) =
      .finite s n k hn := by
  have hzero : e ≠ 0#11 := by
    intro heq
    subst heq
    exact hlow.ne rfl
  have hinfinite : e ≠ -1#11 := by
    intro heq
    subst heq
    exact hhigh.ne rfl
  unfold UnpackedFloat.unpack
  dsimp only
  rw [UnpackedFloat.unpackExponent_packComponents, if_neg hinfinite, if_neg hzero,
    UnpackedFloat.finite.injEq, UnpackedFloat.unpackSign_packComponents,
    UnpackedFloat.Sign.ofBitVec_toBitVec, UnpackedFloat.unpackMantissa_packComponents,
    toNat_one_append]
  exact ⟨rfl, hm, hk⟩

theorem unpack_subnormal (s : Sign) {m : BitVec 52} {n : ℕ} (hn : 0 < n) (hm : m.toNat = n) :
    UnpackedFloat.unpack .binary64 (UnpackedFloat.packComponents .binary64 s 0#11 m) =
      .finite s n (-1074) hn := by
  have hzero : m ≠ 0#52 := by
    intro heq
    subst heq
    exact hn.ne hm
  have hmantissa : UnpackedFloat.unpackMantissa
      (UnpackedFloat.packComponents .binary64 s 0#11 m) = m :=
    UnpackedFloat.unpackMantissa_packComponents
  unfold UnpackedFloat.unpack
  dsimp only
  rw [UnpackedFloat.unpackExponent_packComponents, if_neg (by decide), if_pos rfl,
    dif_neg (by rwa [hmantissa]), UnpackedFloat.finite.injEq,
    UnpackedFloat.unpackSign_packComponents, UnpackedFloat.Sign.ofBitVec_toBitVec, hmantissa]
  exact ⟨rfl, hm, rfl⟩

/-- A canonical double is not changed by encoding it. -/
theorem unpack_pack {u : UnpackedFloat} (hu : Canonical u) (hfin : u.isFinite = true) :
    (pack u).unpack = u := by
  change UnpackedFloat.unpack .binary64 (UnpackedFloat.pack .binary64 u) = u
  cases u with
  | notANumber => cases hfin
  | infinity s => cases hfin
  | zero s => cases s <;> rfl
  | finite s m e hm =>
      obtain ⟨hhigh, hlow, hmax, hfull⟩ := hu
      have hbias : Format.binary64.exponentBias = 1023 := rfl
      unfold UnpackedFloat.pack
      dsimp only
      rw [if_neg (by omega)]
      by_cases hnormal : m.log2 + 1 = Format.binary64.mantissaBits
      · rw [if_pos hnormal]
        have hlog : m.log2 = 52 := Nat.succ.inj hnormal
        have hfull : 2 ^ 52 ≤ m := hlog ▸ Nat.log2_self_le hm.ne'
        apply unpack_normal <;> rw [BitVec.toNat_ofNat] <;> omega
      · rw [if_neg hnormal]
        have hlog : m.log2 < 52 := by
          have := (Nat.log2_lt hm.ne').mpr hhigh
          have : m.log2 ≠ 52 := fun h => hnormal (by rw [h]; rfl)
          omega
        have hsmall : m < 2 ^ 52 := (Nat.log2_lt hm.ne').mp hlog
        obtain rfl : e = -1074 := by omega
        apply unpack_subnormal
        rw [BitVec.toNat_ofNat]
        omega

theorem Holds.zero_or_finite {u : UnpackedFloat} {n : ℕ} (h : Holds u n) :
    (∃ s, u = .zero s) ∧ n = 0 ∨
      ∃ m e hm, u = .finite .positive m e hm ∧ n = size m e ∧ m < 2 ^ 53 ∧ -1074 ≤ e := by
  obtain ⟨hcanonical, hfin, hunits⟩ := h
  cases u with
  | notANumber => cases hfin
  | infinity s => cases hfin
  | zero s =>
      change (0 : ℤ) = n at hunits
      exact Or.inl ⟨⟨s, rfl⟩, by omega⟩
  | finite s m e hm =>
      have hpos := size_pos (e := e) hm
      cases s with
      | negative =>
          change -(size m e : ℤ) = n at hunits
          omega
      | positive =>
          change (size m e : ℤ) = n at hunits
          exact Or.inr ⟨m, e, hm, rfl, by omega, hcanonical.1, hcanonical.2.1⟩

theorem Holds.lt_beyond {u : UnpackedFloat} {n : ℕ} (h : Holds u n) : n < beyond := by
  obtain ⟨-, hlt⟩ := unitsOf_lt_beyond h.1 h.2.1
  rw [h.2.2] at hlt
  exact_mod_cast hlt

theorem Holds.nearestUnits_eq {u : UnpackedFloat} {n : ℕ} (h : Holds u n) : nearestUnits n = n := by
  rcases h.zero_or_finite with ⟨-, rfl⟩ | ⟨m, e, hm, -, rfl, hshort, -⟩
  · exact_mod_cast nearestUnits_zero
  · exact nearestUnits_of_short _ hshort

/-- Nothing below a double is rounded beyond it. -/
theorem Holds.nearestUnits_le {u : UnpackedFloat} {n : ℕ} (h : Holds u n) {x : ℚ} (hx : 0 ≤ x)
    (hle : x ≤ n) : nearestUnits x ≤ n :=
  (nearestUnits_mono hx hle).trans h.nearestUnits_eq.le

/-- Nothing above a double is rounded below it. -/
theorem Holds.le_nearestUnits {u : UnpackedFloat} {n : ℕ} (h : Holds u n) {x : ℚ}
    (hle : (n : ℚ) ≤ x) : n ≤ nearestUnits x :=
  h.nearestUnits_eq.ge.trans (nearestUnits_mono (Nat.cast_nonneg n) hle)

theorem size_shiftLeft (m : ℕ) {e t : ℤ} (h : t ≤ e) (ht : -1074 ≤ t) :
    size (m <<< (e - t).toNat) t = size m e := by
  have hsum : (e + 1074).toNat = (e - t).toNat + (t + 1074).toNat := by omega
  rw [size, size, hsum, Nat.shiftLeft_eq, pow_add, mul_assoc]

/-- The exact sum of two doubles is rounded. -/
theorem holds_add {a b : UnpackedFloat} {m n : ℕ} (ha : Holds a m) (hb : Holds b n)
    (hrange : nearestUnits ((m + n : ℕ) : ℚ) < beyond) :
    Holds (UnpackedFloat.add .binary64 a b) (nearestUnits ((m + n : ℕ) : ℚ)) := by
  rcases ha.zero_or_finite with ⟨⟨s, rfl⟩, rfl⟩ | ⟨k, e, hk, rfl, rfl, -, he⟩
  · rw [Nat.zero_add, hb.nearestUnits_eq]
    rcases hb.zero_or_finite with ⟨⟨s', rfl⟩, rfl⟩ | ⟨k', e', hk', rfl, rfl, -⟩
    · cases s <;> cases s' <;> exact ⟨trivial, rfl, rfl⟩
    · exact hb
  · rcases hb.zero_or_finite with ⟨⟨s', rfl⟩, rfl⟩ | ⟨k', e', hk', rfl, rfl, -, he'⟩
    · rw [Nat.add_zero, ha.nearestUnits_eq]
      exact ha
    · have hsum : size k e + size k' e' =
          size (k <<< (e - min e e').toNat + k' <<< (e' - min e e').toNat) (min e e') := by
        rw [← size_shiftLeft k (min_le_left e e') (by omega),
          ← size_shiftLeft k' (min_le_right e e') (by omega)]
        exact (Nat.add_mul ..).symm
      rw [hsum] at hrange ⊢
      exact (rounded_normalize (by omega)).holds hrange

theorem apply_size (s : Sign) (m : ℕ) (e : ℤ) :
    s.apply (size m e : ℤ) = s.apply (m : ℤ) * 2 ^ (e + 1074).toNat := by
  cases s with
  | negative =>
      rw [size, Nat.cast_mul, Nat.cast_pow, Nat.cast_ofNat]
      exact (neg_mul (m : ℤ) _).symm
  | positive =>
      rw [size, Nat.cast_mul, Nat.cast_pow, Nat.cast_ofNat]
      rfl

/-- A double is not rounded. -/
theorem Canonical.rounded {m : ℕ} {e : ℤ} {hm : 0 < m} (h : Canonical (.finite .positive m e hm)) :
    Rounded (.finite .positive m e hm) (nearestUnits (size m e)) := by
  obtain ⟨hhigh, hlow, -, hfull⟩ := h
  obtain ⟨g, rfl⟩ : ∃ g : ℕ, e = g - 1074 := ⟨(e + 1074).toNat, by omega⟩
  rw [size_sub, nearestUnits_of_short _ hhigh]
  exact Or.inr ⟨m, g, hm, rfl, rfl, hhigh, by omega⟩

/-- **The exact difference of two doubles is rounded**, whatever their signs. -/
theorem rounded_sub {a b : UnpackedFloat} (ha : Canonical a) (hb : Canonical b)
    (hfin : a.isFinite = true) (hfin' : b.isFinite = true) {n : ℕ}
    (hn : unitsOf a - unitsOf b = n) :
    Rounded (UnpackedFloat.sub .binary64 a b) (nearestUnits n) := by
  cases a with
  | notANumber | infinity s => cases hfin
  | zero s =>
      cases b with
      | notANumber | infinity s' => cases hfin'
      | zero s' =>
          change (0 : ℤ) - 0 = n at hn
          obtain rfl : n = 0 := by omega
          rw [Nat.cast_zero, nearestUnits_zero]
          cases s <;> cases s' <;> exact Or.inl ⟨⟨_, rfl⟩, rfl⟩
      | finite s' m' e' hm' =>
          have hpos := size_pos (e := e') hm'
          cases s' with
          | positive =>
              change (0 : ℤ) - size m' e' = n at hn
              omega
          | negative =>
              change (0 : ℤ) - -size m' e' = n at hn
              obtain rfl : n = size m' e' := by omega
              exact Canonical.rounded hb
  | finite s m e hm =>
      cases b with
      | notANumber | infinity s' => cases hfin'
      | zero s' =>
          have hpos := size_pos (e := e) hm
          cases s with
          | negative =>
              change (-size m e : ℤ) - 0 = n at hn
              omega
          | positive =>
              change (size m e : ℤ) - 0 = n at hn
              obtain rfl : n = size m e := by omega
              exact Canonical.rounded ha
      | finite s' m' e' hm' =>
          -- With a common exponent, the difference of the mantissas is the exact difference.
          obtain ⟨-, he, -⟩ := ha
          obtain ⟨-, he', -⟩ := hb
          change s.apply (size m e : ℤ) - s'.apply (size m' e' : ℤ) = n at hn
          rw [← size_shiftLeft m (min_le_left e e') (by omega),
            ← size_shiftLeft m' (min_le_right e e') (by omega), apply_size, apply_size,
            ← sub_mul] at hn
          have hnonneg : 0 ≤ s.apply ((m <<< (e - min e e').toNat : ℕ) : ℤ) -
              s'.apply ((m' <<< (e' - min e e').toNat : ℕ) : ℤ) :=
            nonneg_of_mul_nonneg_left (hn ▸ Int.natCast_nonneg n) (by positivity)
          obtain ⟨k, hk⟩ := Int.eq_ofNat_of_zero_le hnonneg
          rw [hk] at hn
          have hsize : n = size k (min e e') := by exact_mod_cast hn.symm
          unfold UnpackedFloat.sub
          dsimp only [UnpackedFloat.decreaseExponent]
          rw [hk, hsize]
          exact rounded_normalize (by omega)

/-- The exact difference of two doubles that are not negative is in range. -/
theorem holds_sub {a b : UnpackedFloat} {m n : ℕ} (ha : Holds a m) (hb : Holds b n) (h : n ≤ m) :
    Holds (UnpackedFloat.sub .binary64 a b) (nearestUnits ((m - n : ℕ) : ℚ)) := by
  have hrange : nearestUnits ((m - n : ℕ) : ℚ) < beyond := by
    have hle : ((m - n : ℕ) : ℚ) ≤ m := by exact_mod_cast Nat.sub_le m n
    exact (ha.nearestUnits_le (Nat.cast_nonneg _) hle).trans_lt ha.lt_beyond
  have hexact : unitsOf a - unitsOf b = (m - n : ℕ) := by
    rw [ha.2.2, hb.2.2, Nat.cast_sub h]
  exact (rounded_sub ha.1 hb.1 ha.2.1 hb.2.1 hexact).holds hrange

theorem tells_accuracyOfFraction {n d : ℕ} (h : n < d) :
    Tells (UnpackedFloat.accuracyOfFraction n d) (n / d) := by
  have hd : (0 : ℚ) < d := by exact_mod_cast (Nat.zero_le n).trans_lt h
  have hlt : (n : ℚ) / d < 1 := (div_lt_one hd).mpr (by exact_mod_cast h)
  unfold UnpackedFloat.accuracyOfFraction
  split
  · next hzero =>
    rw [hzero, Nat.cast_zero, zero_div]
    rfl
  · next hzero =>
    have hpos : (0 : ℚ) < n / d := div_pos (by exact_mod_cast Nat.pos_of_ne_zero hzero) hd
    rcases lt_trichotomy (2 * n) d with hless | heq | hmore
    · rw [compare_lt_iff_lt.mpr hless]
      have hless' : (2 : ℚ) * n < d := by exact_mod_cast hless
      exact ⟨hpos, by rw [div_lt_div_iff₀ hd (by norm_num)]; linarith⟩
    · rw [compare_eq_iff_eq.mpr heq]
      have heq' : (2 : ℚ) * n = d := by exact_mod_cast heq
      change (n : ℚ) / d = 1 / 2
      rw [div_eq_div_iff hd.ne' (by norm_num)]
      linarith
    · rw [compare_gt_iff_gt.mpr hmore]
      have hmore' : (d : ℚ) < 2 * n := by exact_mod_cast hmore
      exact ⟨by rw [div_lt_div_iff₀ (by norm_num) hd]; linarith, hlt⟩

/-- The remainder of a division says how the quotient goes on. -/
theorem tells_remainder (n : ℕ) {d : ℕ} (hd : 0 < d) :
    Tells (UnpackedFloat.accuracyOfFraction (n % d) d) ((n : ℚ) / d - (n / d : ℕ)) := by
  have hpos : (d : ℚ) ≠ 0 := by exact_mod_cast hd.ne'
  have hparts : (n : ℚ) = d * (n / d : ℕ) + (n % d : ℕ) := by
    exact_mod_cast (Nat.div_add_mod n d).symm
  have hrest : (n : ℚ) / d - (n / d : ℕ) = (n % d : ℕ) / d := by
    rw [div_sub' hpos, hparts, add_sub_cancel_left]
  rw [hrest]
  exact tells_accuracyOfFraction (Nat.mod_lt n hd)

theorem targetExponent_sub (m₁ m₂ : ℕ) (e₁ e₂ : ℤ) :
    Format.binary64.targetExponent (totalExponent m₁ e₁ - totalExponent m₂ e₂) =
      max (m₁.log2 + e₁ - (m₂.log2 + e₂) - 53) (-1074) := by
  have hmin : Format.binary64.minExponent = -1074 := rfl
  have hbits : (Format.binary64.mantissaBits : ℤ) = 53 := rfl
  unfold Format.targetExponent totalExponent
  omega

/-- A quotient is computed to enough bits. -/
theorem exists_divCore {m₁ m₂ : ℕ} (e₁ e₂ : ℤ) (hm₁ : 0 < m₁) (hm₂ : 0 < m₂) :
    ∃ q t a, UnpackedFloat.divCore .binary64 m₁ e₁ m₂ e₂ = (q, t, a) ∧
      (52 ≤ q.log2 ∨ t ≤ -1074) ∧
      ∃ x : ℚ, Tells a (x - q) ∧ x * 2 ^ (t + 1074) = m₁ / m₂ * 2 ^ (e₁ - e₂ + 1074) := by
  refine ⟨_, _, _, rfl, ?_⟩
  rw [targetExponent_sub]
  generalize ht : min (e₁ - e₂) (max (m₁.log2 + e₁ - (m₂.log2 + e₂) - 53) (-1074)) = t
  generalize hk : (e₁ - e₂ - t).toNat = k
  rw [Nat.shiftLeft_eq]
  refine ⟨?_, (m₁ * 2 ^ k : ℕ) / m₂, tells_remainder _ hm₂, ?_⟩
  · by_cases hleast : t ≤ -1074
    · exact Or.inr hleast
    · have hlarge : 2 ^ 52 * m₂ ≤ m₁ * 2 ^ k := by
        have hshort : m₂ ≤ 2 ^ (m₂.log2 + 1) := Nat.lt_log2_self.le
        calc
          2 ^ 52 * m₂ ≤ 2 ^ 52 * 2 ^ (m₂.log2 + 1) := Nat.mul_le_mul_left _ hshort
          _ = 2 ^ (53 + m₂.log2) := by ring
          _ ≤ m₁ * 2 ^ k := two_pow_le_mul_two_pow hm₁ (by omega)
      have hfull : 2 ^ 52 ≤ m₁ * 2 ^ k / m₂ := (Nat.le_div_iff_mul_le hm₂).mpr hlarge
      exact Or.inl ((Nat.le_log2 (by omega)).mpr hfull)
  · have hsplit : e₁ - e₂ + 1074 = (k : ℤ) + (t + 1074) := by omega
    rw [hsplit, zpow_add₀ two_ne_zero (k : ℤ), zpow_natCast, Nat.cast_mul, Nat.cast_pow,
      Nat.cast_ofNat]
    ring

/-- **The exact quotient of two doubles that are not negative is rounded.** -/
theorem rounded_div {a b : UnpackedFloat} {m n : ℕ} (ha : Holds a m) (hb : Holds b n) (hn : 0 < n) :
    Rounded (UnpackedFloat.div .binary64 a b) (nearestUnits ((m : ℚ) / n * 2 ^ 1074)) := by
  obtain ⟨m₂, e₂, hm₂, rfl, rfl, -, he₂⟩ := hb.zero_or_finite.resolve_left fun h => hn.ne' h.2
  rcases ha.zero_or_finite with ⟨⟨s, rfl⟩, rfl⟩ | ⟨m₁, e₁, hm₁, rfl, rfl, -, he₁⟩
  · rw [Nat.cast_zero, zero_div, zero_mul, nearestUnits_zero]
    exact Or.inl ⟨⟨_, rfl⟩, rfl⟩
  · obtain ⟨q, t, a, hcore, hbits, x, hx, hquotient⟩ := exists_divCore e₁ e₂ hm₁ hm₂
    have hscale : (size m₁ e₁ : ℚ) / size m₂ e₂ * 2 ^ 1074 = x * 2 ^ (t + 1074) := by
      have hsplit : e₁ - e₂ + 1074 = (e₁ + 1074) - (e₂ + 1074) + (1074 : ℕ) := by omega
      have hpowers : (2 : ℚ) ^ (e₁ - e₂ + 1074) = 2 ^ (e₁ + 1074) / 2 ^ (e₂ + 1074) * 2 ^ 1074 := by
        rw [hsplit, zpow_add₀ two_ne_zero, zpow_sub₀ two_ne_zero, zpow_natCast]
      rw [hquotient, hpowers, cast_size he₁, cast_size he₂, mul_div_mul_comm, mul_assoc]
    rw [hscale]
    unfold UnpackedFloat.div
    dsimp only
    rw [hcore]
    exact rounded_roundWithAccuracy hx hbits

/-- The quotient is a double if it is in range. -/
theorem holds_div {a b : UnpackedFloat} {m n : ℕ} (ha : Holds a m) (hb : Holds b n) (hn : 0 < n)
    (hrange : nearestUnits ((m : ℚ) / n * 2 ^ 1074) < beyond) :
    Holds (UnpackedFloat.div .binary64 a b) (nearestUnits ((m : ℚ) / n * 2 ^ 1074)) :=
  (rounded_div ha hb hn).holds hrange

/-- The exact half of a double is rounded. -/
theorem holds_half {a : UnpackedFloat} {n : ℕ} (ha : Holds a n) :
    Holds (UnpackedFloat.div .binary64 a (2.0 : Float).toModel.unpack) (nearestUnits (n / 2)) := by
  have htwo : Holds (2.0 : Float).toModel.unpack (2 ^ 1075) :=
    ⟨canonical_unpack _, rfl, by decide +kernel⟩
  have hhalf : (n : ℚ) / (2 ^ 1075 : ℕ) * 2 ^ 1074 = n / 2 := by
    rw [Nat.cast_pow, Nat.cast_ofNat, pow_succ, div_mul_eq_mul_div, mul_comm (n : ℚ)]
    exact mul_div_mul_left _ _ (pow_ne_zero _ two_ne_zero)
  have hrange : nearestUnits ((n : ℚ) / 2) < beyond := by
    have hle : (n : ℚ) / 2 ≤ n := half_le_self (Nat.cast_nonneg n)
    exact (ha.nearestUnits_le (by positivity) hle).trans_lt ha.lt_beyond
  rw [← hhalf] at hrange ⊢
  have hpos : 0 < 2 ^ 1075 := by positivity
  exact holds_div ha htwo hpos hrange

/-- A finite double with a whole number of units that is not negative. -/
def Counts (x : Float) (n : ℕ) : Prop :=
  x.isFinite = true ∧ units x = n

theorem counts_zero : Counts 0.0 0 :=
  ⟨by decide, units_zero⟩

theorem counts_of_nonneg {x : Float} (hfin : x.isFinite = true) (h : 0.0 ≤ x) :
    Counts x (units x).toNat := by
  obtain ⟨-, -, hpos⟩ := le_iff.mp h
  rw [units_zero] at hpos
  exact ⟨hfin, (Int.toNat_of_nonneg hpos).symm⟩

theorem Counts.holds {x : Float} {n : ℕ} (h : Counts x n) : Holds x.toModel.unpack n :=
  ⟨canonical_unpack x.toModel, h.1, h.2⟩

theorem Holds.counts {u : UnpackedFloat} {n : ℕ} (h : Holds u n) :
    Counts (.ofModel (pack u)) n := by
  have hround := unpack_pack h.1 h.2.1
  refine ⟨?_, ?_⟩
  · change (pack u).unpack.isFinite = true
    rw [hround]
    exact h.2.1
  · change unitsOf (pack u).unpack = n
    rw [hround]
    exact h.2.2

theorem Counts.sub {x y : Float} {m n : ℕ} (hx : Counts x m) (hy : Counts y n) (h : n ≤ m) :
    Counts (x - y) (nearestUnits ((m - n : ℕ) : ℚ)) :=
  (holds_sub hx.holds hy.holds h).counts

theorem Counts.add {x y : Float} {m n : ℕ} (hx : Counts x m) (hy : Counts y n)
    (hrange : nearestUnits ((m + n : ℕ) : ℚ) < beyond) :
    Counts (x + y) (nearestUnits ((m + n : ℕ) : ℚ)) :=
  (holds_add hx.holds hy.holds hrange).counts

theorem Counts.div {x y : Float} {m n : ℕ} (hx : Counts x m) (hy : Counts y n) (hn : 0 < n)
    (hrange : nearestUnits ((m : ℚ) / n * 2 ^ 1074) < beyond) :
    Counts (x / y) (nearestUnits ((m : ℚ) / n * 2 ^ 1074)) :=
  (holds_div hx.holds hy.holds hn hrange).counts

theorem Counts.half {x : Float} {n : ℕ} (hx : Counts x n) :
    Counts (x / 2.0) (nearestUnits (n / 2)) :=
  (holds_half hx.holds).counts

theorem Counts.le {x y : Float} {m n : ℕ} (hx : Counts x m) (hy : Counts y n) (h : m ≤ n) :
    x ≤ y := by
  refine le_iff.mpr ⟨(isFinite_iff.mp hx.1).1, (isFinite_iff.mp hy.1).1, ?_⟩
  rw [hx.2, hy.2]
  exact_mod_cast h

/-- Half of a rounded size is no more than the size. -/
theorem nearestUnits_half_le (n : ℕ) : nearestUnits (nearestUnits n / 2) ≤ n := by
  rcases Nat.eq_zero_or_pos n with rfl | hpos
  · rw [Nat.cast_zero, nearestUnits_zero, Nat.cast_zero, zero_div, nearestUnits_zero]
  -- A power of two is not rounded, and the least one above the size is less than its double.
  have hlog : n ≤ 2 ^ (n.log2 + 1) := Nat.lt_log2_self.le
  have hround : nearestUnits n ≤ 2 ^ (n.log2 + 1) := by
    rw [← nearestUnits_two_pow]
    exact nearestUnits_mono (Nat.cast_nonneg n) (by exact_mod_cast hlog)
  have hhalf : (nearestUnits n : ℚ) / 2 ≤ 2 ^ n.log2 := by
    have hround' : (nearestUnits n : ℚ) ≤ 2 ^ (n.log2 + 1) := by exact_mod_cast hround
    rw [pow_succ] at hround'
    linarith
  calc
    nearestUnits (nearestUnits n / 2) ≤ nearestUnits (2 ^ n.log2) :=
      nearestUnits_mono (by positivity) hhalf
    _ = 2 ^ n.log2 := nearestUnits_two_pow n.log2
    _ ≤ n := Nat.log2_self_le hpos.ne'

/-- The middle between two sizes, rounded as often as the middle between two doubles is. -/
def middleUnits (m n : ℕ) : ℕ :=
  nearestUnits ((m + nearestUnits (nearestUnits ((n - m : ℕ) : ℚ) / 2) : ℕ) : ℚ)

/-- The middle between two bounds, in units.  Neither the difference of the bounds nor its half is
exact, but the half is never rounded beyond the exact difference, and the sum is never rounded
beyond the bounds, which are doubles themselves. -/
theorem Counts.middle {x y : Float} {m n : ℕ} (hx : Counts x m) (hy : Counts y n) (h : m ≤ n) :
    Counts (Rect.middle x y) (middleUnits m n) ∧ m ≤ middleUnits m n ∧ middleUnits m n ≤ n := by
  have hstep := (hy.sub hx h).half
  have hshort := nearestUnits_half_le (n - m)
  unfold middleUnits
  generalize nearestUnits (nearestUnits ((n - m : ℕ) : ℚ) / 2) = half at hstep hshort ⊢
  have hlow : m ≤ nearestUnits ((m + half : ℕ) : ℚ) := by
    apply hx.holds.le_nearestUnits
    exact_mod_cast Nat.le_add_right m half
  have hhigh : nearestUnits ((m + half : ℕ) : ℚ) ≤ n := by
    have hsum : m + half ≤ n := by omega
    exact hy.holds.nearestUnits_le (Nat.cast_nonneg _) (by exact_mod_cast hsum)
  exact ⟨hx.add hstep (hhigh.trans_lt hy.holds.lt_beyond), hlow, hhigh⟩

/-- **The middle lies between the bounds.** -/
theorem middle_bounds {a b : Float} (ha : 0.0 ≤ a) (hab : a ≤ b) (hb : b.isFinite = true) :
    a ≤ Rect.middle a b ∧ Rect.middle a b ≤ b := by
  obtain ⟨m, hm⟩ : ∃ m, Counts a m := ⟨_, counts_of_nonneg (isFinite_of_le ha hab hb) ha⟩
  obtain ⟨n, hn⟩ : ∃ n, Counts b n := ⟨_, counts_of_nonneg hb (le_trans ha hab)⟩
  have hmn : m ≤ n := by
    obtain ⟨-, -, hunits⟩ := le_iff.mp hab
    rw [hm.2, hn.2] at hunits
    exact_mod_cast hunits
  obtain ⟨hk, hlow, hhigh⟩ := hm.middle hn hmn
  exact ⟨hm.le hk hlow, hk.le hn hhigh⟩

end QuadCode.Double
