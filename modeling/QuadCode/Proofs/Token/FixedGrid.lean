import Mathlib.Data.Rat.Floor
import QuadCode.Proofs.Token.CoordinateOrder
import QuadCode.Proofs.Tree.ExactCells
import QuadCode.Proofs.Tree.LeafIndex

/-!
# Codes as cells of a fixed grid

In a region whose side is a power of two the grid lines are not rounded, and the space that a
coordinate belongs to can be told without halving anything: divide the coordinate by the width of a
cell and drop what is behind the point.  A coordinate on a line inside the region goes to the cell
above the line.  The upper bound of the region has no cell above it, and goes to the last one.

Going one level deeper doubles the quotient.  The floor of the double is the double of the floor, or
one more if the odd line between the halves is reached, and that is how spaces are numbered.

Main statements:

* `exactly_gridLine`: the grid lines of such a region as numbers;
* `gridSpace_eq_cellNumber`: the space that a coordinate belongs to is the cell it lies in;
* `codes_on_fixedGrid`: the codes of a tree name cells of the grid that has their level.
-/

namespace QuadCode

open Double Rect

/-- Which cell of the grid of a level a coordinate lies in, on one axis of a region of the given
side.  The upper bound of the region lies in the last cell. -/
def cellNumber (side x : Float) (lod : ℕ) : ℕ :=
  min ⌊value x * 2 ^ lod / value side⌋₊ (2 ^ lod - 1)

/-- A number between zero and `n`, counted in halves: the half it lies in is told by the whole it
lies in and by the middle of that. -/
theorem min_floor_two_mul (w : ℚ) {n : ℕ} (hn : 0 < n) :
    min ⌊2 * w⌋₊ (2 * n - 1) = 2 * min ⌊w⌋₊ (n - 1) +
      if ((2 * min ⌊w⌋₊ (n - 1) + 1 : ℕ) : ℚ) ≤ 2 * w then 1 else 0 := by
  have hhalf : ⌊w⌋₊ = ⌊2 * w⌋₊ / 2 := by
    rw [← Nat.floor_div_ofNat, mul_div_cancel_left₀ w two_ne_zero]
  rw [if_congr (Nat.le_floor_iff' (Nat.succ_ne_zero _)).symm rfl rfl, hhalf]
  split <;> omega

variable {side x : Float} {lod line : ℕ} {k : ℤ}

/-- In a region whose side is a power of two, the lines of a grid stand for whole multiples of the
width of its cells. -/
theorem exactly_gridLine (hside : Exactly side (2 ^ k)) (hk : -1021 ≤ k) (hshort : lod ≤ 53)
    (hline : line ≤ 2 ^ lod) : Exactly (gridLine side lod line) (line * 2 ^ (k - lod)) := by
  obtain ⟨levels, hlevels⟩ : ∃ levels : ℕ, (levels : ℤ) = k + 1074 :=
    ⟨(k + 1074).toNat, by omega⟩
  have hstep : ((levels - lod : ℕ) : ℤ) = k - lod + 1074 := by omega
  exact (counts_gridLine (hside.counts hlevels) hshort (by omega) hline).exactly hstep

/-- A coordinate is not below a grid line if it is not below it in widths of cells. -/
theorem gridLine_le_iff (hside : Exactly side (2 ^ k)) (hk : -1021 ≤ k) (hshort : lod ≤ 53)
    (hline : line ≤ 2 ^ lod) (hx : x.isFinite = true) :
    gridLine side lod line ≤ x ↔ (line : ℚ) ≤ value x * 2 ^ lod / value side := by
  have hwidth : (2 : ℚ) ^ (k - lod) = 2 ^ k / 2 ^ lod := by
    rw [zpow_sub₀ two_ne_zero, zpow_natCast]
  rw [(exactly_gridLine hside hk hshort hline).le_iff hx, hside.eq, hwidth, ← mul_div_assoc,
    div_le_iff₀ (pow_pos two_pos lod), le_div_iff₀ (zpow_pos two_pos k)]

/-- **The space that a coordinate belongs to is the cell it lies in**, if nothing is rounded. -/
theorem gridSpace_eq_cellNumber (hside : Exactly side (2 ^ k)) (hk : -1021 ≤ k)
    (hx : x.isFinite = true) (hshort : lod ≤ 53) : gridSpace side lod x = cellNumber side x lod := by
  induction lod with
  | zero => exact (Nat.min_zero _).symm
  | succ lod ih =>
      have hcell := ih (by omega)
      have hodd : 2 * cellNumber side x lod + 1 ≤ 2 ^ (lod + 1) := by
        have hlast : cellNumber side x lod ≤ 2 ^ lod - 1 := Nat.min_le_right _ _
        have hpos : 0 < 2 ^ lod := Nat.two_pow_pos lod
        rw [pow_succ]
        omega
      have hdouble : value x * 2 ^ (lod + 1) / value side =
          2 * (value x * 2 ^ lod / value side) := by ring
      have hreached := gridLine_le_iff hside hk hshort hodd hx
      rw [hdouble] at hreached
      rw [gridSpace, hcell, if_congr hreached rfl rfl]
      unfold cellNumber
      rw [hdouble, pow_succ', min_floor_two_mul _ (Nat.two_pow_pos lod)]

example : cellNumber 1.0 0.5 3 = 4 ∧ cellNumber 1.0 0.9 3 = 7 ∧ cellNumber 1.0 1.0 3 = 7 := by
  decide +kernel

namespace Tree

/-- **Codes are cells of a fixed grid.**  In a subdivided tree whose points stand for different
entities, over a region of side `2 ^ k`, each point's entity has a code, and the code is that of the
key whose level is the length of the code and whose column and row are the cells of the grid of that
level that the coordinates of the point lie in.  No double is as great as `2 ^ 1024`, so there is no
other bound for the exponent. -/
theorem codes_on_fixedGrid {t : Tree Nat} (h : t.Reachable) (hdone : t.isSubdivided = true)
    (hdistinct : (t.points.toList.map Point.data).Nodup) {k : ℤ}
    (hside : value t.settings.rectSize = 2 ^ k) (hk : -1021 ≤ k) :
    ∃ codes, t.codes t.settings.rectSize .identity = .ok codes ∧
      ∀ p ∈ t.points, ∃ code, codes[p.data]? = some code ∧ ∃ key : Key, key.code = code ∧
        Key.ofGrid code.length (cellNumber t.settings.rectSize p.x code.length)
          (cellNumber t.settings.rectSize p.y code.length) = .ok key := by
  have hsound := Sound.of_reachable h
  obtain ⟨hfinite, -, hlimit⟩ := Settings.parts_of_valid hsound.valid
  refine ⟨_, hsound.codes_eq hdone .identity, ?_⟩
  intro p hp
  obtain ⟨i, hi⟩ := Array.mem_iff_getElem?.mp hp
  obtain ⟨leaf, hlocate, -, hlast⟩ := hsound.locate_isLast hi
  have hcode : (t.occupiedLeaves.foldl (CodeMap.insertLeaf t .identity) ∅)[p.data]? =
      some leaf.key.code := by
    rw [foldl_insertLeaf_last hdistinct hi ∅ hlast, apply_identity]
  refine ⟨_, hcode, leaf.key, rfl, ?_⟩
  obtain ⟨hpx, hpy⟩ := Bool.and_eq_true_iff.mp (Bool.and_eq_true_iff.mp (hsound.admitted p hp)).1
  obtain ⟨hx, hy⟩ := hsound.inSpaces_of_locate hlocate
  have hexact : Exactly t.settings.rectSize (2 ^ k) := ⟨hfinite, hside⟩
  have hshort : leaf.key.lod ≤ 53 := by
    obtain ⟨-, id, hid⟩ := hsound.mem_leaves_iff.mp (mem_occupiedLeaves_iff.mp hlast.mem).1
    exact (hsound.lod_le hid).trans (Nat.succ_le_succ hlimit)
  rw [Key.length_code, ← gridSpace_eq_cellNumber hexact hk hpx hshort,
    ← gridSpace_eq_cellNumber hexact hk hpy hshort, ← hx, ← hy]
  exact leaf.key.ofGrid_self

/-- The codes of the small tree, whose first point lies on both mid lines of the region, and of the
upper corner of the region, which is added to it. -/
theorem codes_crossing_on_fixedGrid :
    let t := crossing.afterAll [.add ⟨⟨1.0, 1.0⟩, 3⟩, .subdivide]
    t.Reachable ∧ t.isSubdivided = true ∧ (t.points.toList.map Point.data).Nodup ∧
      value t.settings.rectSize = 2 ^ (0 : ℤ) ∧ (-1021 : ℤ) ≤ 0 ∧
        ∃ codes, t.codes t.settings.rectSize .identity = .ok codes ∧
          ∀ p ∈ t.points, ∃ code, codes[p.data]? = some code ∧ ∃ key : Key, key.code = code ∧
            Key.ofGrid code.length (cellNumber t.settings.rectSize p.x code.length)
              (cellNumber t.settings.rectSize p.y code.length) = .ok key := by
  have hreachable := reachable_crossing.afterAll [.add ⟨⟨1.0, 1.0⟩, 3⟩, .subdivide]
  have hlonger := (Sound.of_reachable reachable_crossing).after (.add ⟨⟨1.0, 1.0⟩, 3⟩)
  obtain ⟨arena, -, harena⟩ := after_subdivide hlonger rfl
  rw [afterAll, List.foldl_cons, List.foldl_cons, List.foldl_nil, harena] at hreachable ⊢
  have hdistinct : ((crossing.after (.add ⟨⟨1.0, 1.0⟩, 3⟩)).points.toList.map Point.data).Nodup := by
    decide
  have hunit : value (crossing.after (.add ⟨⟨1.0, 1.0⟩, 3⟩)).settings.rectSize = 2 ^ (0 : ℤ) :=
    value_one
  exact ⟨hreachable, rfl, hdistinct, hunit, by decide,
    codes_on_fixedGrid hreachable rfl hdistinct hunit (by decide)⟩

end Tree

end QuadCode
