import QuadCode.Proofs.Double.Halving
import QuadCode.Proofs.Double.Values
import QuadCode.Proofs.Geometry.GridLines

/-!
# Cells without rounding

The side of a region may be a power of two.  Then the lines of its grids are whole multiples of
smaller powers of two, and down to level 53 the multiples have no more bits than a double keeps.  As
long as the steps between the lines are units or more, no line is rounded.  Nor is anything that is
computed from the bounds of a cell: its extent, half its extent, and the number of its column or
row, which is what comes out when its lower bound is divided by its extent.

Main statements:

* `counts_gridLine`: the lines of the grids in units;
* `Between.exactSpan`: the bounds between two lines, and what is computed from them;
* `Between.exactHalves`: how they are halved.
-/

namespace QuadCode

open Double

variable {side lower upper : Float} {lod line : ℕ}

/-- In a region of `2 ^ levels` units, the lines of a grid are not rounded. -/
theorem counts_gridLine {levels : ℕ} (hside : Counts side (2 ^ levels)) (hshort : lod ≤ 53)
    (hlevels : lod ≤ levels) (hline : line ≤ 2 ^ lod) :
    Counts (gridLine side lod line) (line * 2 ^ (levels - lod)) := by
  induction lod generalizing line with
  | zero =>
      have hends : line = 0 ∨ line = 1 := Nat.le_one_iff_eq_zero_or_eq_one.mp hline
      rcases hends with rfl | rfl
      · rw [Nat.zero_mul]
        exact counts_zero
      · rw [Nat.one_mul]
        exact hside
  | succ lod ih =>
      have hlines : ∀ {above : ℕ}, above ≤ 2 ^ lod →
          Counts (gridLine side lod above) (above * 2 ^ (levels - (lod + 1) + 1)) := by
        intro above habove
        have hstep : levels - lod = levels - (lod + 1) + 1 := by omega
        rw [← hstep]
        exact ih (by omega) (by omega) habove
      rw [pow_succ] at hline
      obtain ⟨above, hbit⟩ := Nat.even_or_odd' line
      rcases hbit with rfl | rfl
      · rw [gridLine_even, mul_comm 2 above, mul_assoc, ← pow_succ']
        exact hlines (by omega)
      · have hbits : 2 ^ (lod + 1) ≤ 2 ^ 53 := Nat.pow_le_pow_right Nat.two_pos hshort
        rw [pow_succ] at hbits
        rw [gridLine_odd]
        exact (hlines (by omega)).middle_grid (hlines (by omega)) (by omega)

namespace Rect

/-- Bounds on one axis that are exactly two neighbouring lines of the grid that divides `2 ^ k` into
`2 ^ lod` parts.  Their difference is exact, and so is the number of the line that it tells. -/
structure ExactSpan (k : ℤ) (lod line : ℕ) (a b : Float) : Prop where
  lower : Exactly a (line * 2 ^ (k - lod))
  upper : Exactly b ((line + 1) * 2 ^ (k - lod))
  extent : Exactly (b - a) (2 ^ (k - lod))
  number : Exactly (a / (b - a)) line

theorem ExactSpan.floor_number {k : ℤ} (h : ExactSpan k lod line lower upper) :
    ⌊value (lower / (upper - lower))⌋ = line := by
  rw [h.number.eq, Int.floor_natCast]

theorem ExactSpan.extent_pos {k : ℤ} (h : ExactSpan k lod line lower upper) :
    0.0 < upper - lower :=
  exactly_zero.lt h.extent (zpow_pos two_pos _)

/-- Bounds on one axis that are halved without rounding. -/
structure ExactHalves (k : ℤ) (lod line : ℕ) (a b : Float) : Prop where
  half : Exactly ((b - a) / 2.0) (2 ^ (k - lod - 1))
  middle : Exactly (middle a b) ((2 * line + 1) * 2 ^ (k - lod - 1))

/-- The difference of two bounds that are one step of a power of two apart is exact. -/
theorem counts_extent {c g : ℕ} (hlower : Counts lower (c * 2 ^ g))
    (hupper : Counts upper ((c + 1) * 2 ^ g)) : Counts (upper - lower) (1 * 2 ^ g) := by
  have hextent := hupper.sub hlower (Nat.mul_le_mul_right _ c.le_succ)
  have hstep : (c + 1) * 2 ^ g - c * 2 ^ g = 1 * 2 ^ g := by
    rw [← Nat.sub_mul, Nat.add_sub_cancel_left]
  rwa [hstep, nearestUnits_of_short g (by norm_num)] at hextent

/-- A bound that is divided by the step gives its number. -/
theorem counts_number {x y : Float} {c g : ℕ} (hx : Counts x (c * 2 ^ g))
    (hy : Counts y (1 * 2 ^ g)) (hshort : c < 2 ^ 53) : Counts (x / y) (c * 2 ^ 1074) := by
  have hquotient : ((c * 2 ^ g : ℕ) : ℚ) / (1 * 2 ^ g : ℕ) * 2 ^ 1074 = (c * 2 ^ 1074 : ℕ) := by
    rw [Nat.cast_mul, Nat.cast_mul, mul_div_mul_right _ _ (by positivity), Nat.cast_one, div_one,
      Nat.cast_mul, Nat.cast_pow, Nat.cast_ofNat]
  have hexact := nearestUnits_of_short 1074 hshort
  have hrange : c * 2 ^ 1074 < beyond :=
    calc
      c * 2 ^ 1074 < 2 ^ 53 * 2 ^ 1074 := Nat.mul_lt_mul_of_pos_right hshort (by positivity)
      _ ≤ beyond := by decide +kernel
  rw [← hquotient] at hexact
  have hdiv := hx.div hy (by positivity) (hexact.trans_lt hrange)
  rwa [hexact] at hdiv

/-- A step of a power of two is halved without rounding. -/
theorem counts_half_step {x : Float} {g : ℕ} (hx : Counts x (1 * 2 ^ (g + 1))) :
    Counts (x / 2.0) (1 * 2 ^ g) := by
  have hhalf : ((1 * 2 ^ (g + 1) : ℕ) : ℚ) / 2 = (1 * 2 ^ g : ℕ) := by
    rw [pow_succ]
    push_cast
    ring
  have hexact := hx.half
  rwa [hhalf, nearestUnits_of_short g (by norm_num)] at hexact

/-- The bounds between two lines, in units. -/
theorem Between.counts {levels : ℕ} (h : Between side lod line lower upper)
    (hside : Counts side (2 ^ levels)) (hshort : lod ≤ 53) (hlevels : lod ≤ levels)
    (hline : line < 2 ^ lod) : Counts lower (line * 2 ^ (levels - lod)) ∧
      Counts upper ((line + 1) * 2 ^ (levels - lod)) := by
  rw [h.lower, h.upper]
  exact ⟨counts_gridLine hside hshort hlevels hline.le, counts_gridLine hside hshort hlevels hline⟩

section

variable {k : ℤ} (hside : Exactly side (2 ^ k)) (hk : -1021 ≤ k)
  (h : Between side lod line lower upper) (hline : line < 2 ^ lod)

include hside hk h hline

/-- **Between two lines nothing is rounded**, if the level is not below the 53rd. -/
theorem Between.exactSpan (hshort : lod ≤ 53) : ExactSpan k lod line lower upper := by
  obtain ⟨levels, hlevels⟩ : ∃ levels : ℕ, (levels : ℤ) = k + 1074 :=
    ⟨(k + 1074).toNat, by omega⟩
  have hstep : ((levels - lod : ℕ) : ℤ) = k - lod + 1074 := by omega
  obtain ⟨hlower, hupper⟩ := h.counts (hside.counts hlevels) hshort (by omega) hline
  have hextent := counts_extent hlower hupper
  have hbits : 2 ^ lod ≤ 2 ^ 53 := Nat.pow_le_pow_right Nat.two_pos hshort
  have hnumber := counts_number hlower hextent (hline.trans_le hbits)
  have hupper' := hupper.exactly hstep
  have hextent' := hextent.exactly hstep
  have hnumber' := hnumber.exactly (show ((1074 : ℕ) : ℤ) = 0 + 1074 by norm_num)
  rw [Nat.cast_succ] at hupper'
  rw [Nat.cast_one, one_mul] at hextent'
  rw [zpow_zero, mul_one] at hnumber'
  exact ⟨hlower.exactly hstep, hupper', hextent', hnumber'⟩

/-- **Bounds between two lines are halved without rounding**, down to the level below. -/
theorem Between.exactHalves (hshort : lod + 1 ≤ 53) : ExactHalves k lod line lower upper := by
  obtain ⟨levels, hlevels⟩ : ∃ levels : ℕ, (levels : ℤ) = k + 1074 :=
    ⟨(k + 1074).toNat, by omega⟩
  have hstep : ((levels - (lod + 1) : ℕ) : ℤ) = k - lod - 1 + 1074 := by omega
  have hnext : levels - lod = levels - (lod + 1) + 1 := by omega
  obtain ⟨hlower, hupper⟩ := h.counts (hside.counts hlevels) (by omega) (by omega) hline
  rw [hnext] at hlower hupper
  have hbits : 2 ^ (lod + 1) ≤ 2 ^ 53 := Nat.pow_le_pow_right Nat.two_pos hshort
  rw [pow_succ] at hbits
  have hhalf := (counts_half_step (counts_extent hlower hupper)).exactly hstep
  have hmiddle := (hlower.middle_grid hupper (by omega)).exactly hstep
  rw [Nat.cast_one, one_mul] at hhalf
  rw [Nat.cast_succ, Nat.cast_mul, Nat.cast_ofNat] at hmiddle
  exact ⟨hhalf, hmiddle⟩

end

end Rect

end QuadCode
