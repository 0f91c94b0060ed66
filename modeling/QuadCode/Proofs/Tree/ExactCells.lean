import QuadCode.Proofs.Geometry.ExactCells
import QuadCode.Proofs.Tree.Seams
import QuadCode.Proofs.Tree.Width

/-!
# Keys and rectangles

The key of a node comes from the key of its parent by shifting in bits, and its rectangle from the
rectangle of its parent by halving.  Where halving is exact, both say the same: the rectangle is the
cell with the coordinates of the key in the grid of its level, and the coordinates can be read off
from the rectangle.  That is so in every region whose side is a power of two, unless it is so small
that its cells need more than the smallest doubles.

Main statements:

* `Sound.exactCell`: the rectangle of a node is the cell that its key tells;
* `dyadic_of_reachable`: this, how it is split, and how the key is read off.
-/

namespace QuadCode

open Double Rect

variable {α : Type}

/-- A rectangle that is exactly the cell that a key tells in a region of side `2 ^ k`. -/
structure Rect.ExactCell (k : ℤ) (key : Key) (r : Rect) : Prop where
  x : ExactSpan k key.lod key.x r.minX r.maxX
  y : ExactSpan k key.lod key.y r.minY r.maxY

namespace Tree

/-- Keys and rectangles agree in a region of side `2 ^ k`, and nothing is rounded. -/
structure Dyadic (t : Tree α) (k : ℤ) : Prop where
  cell : ∀ {id : Nat} {n : Node}, t.node? id = some n → n.rect.ExactCell k n.key
  /-- The nodes that may be split are split without rounding. -/
  split : ∀ {id : Nat} {n : Node}, t.node? id = some n →
    n.key.lod ≤ t.settings.lodThreshold.toNat →
      ExactHalves k n.key.lod n.key.x n.rect.minX n.rect.maxX ∧
        ExactHalves k n.key.lod n.key.y n.rect.minY n.rect.maxY
  column : ∀ {id : Nat} {n : Node}, t.node? id = some n →
    ⌊value (n.rect.minX / n.rect.width)⌋ = n.key.x
  row : ∀ {id : Nat} {n : Node}, t.node? id = some n →
    ⌊value (n.rect.minY / n.rect.height)⌋ = n.key.y
  wide : ∀ {id : Nat} {n : Node}, t.node? id = some n →
    0.0 < n.rect.width ∧ 0.0 < n.rect.height

/-- The rectangle of a node is the cell that its key tells. -/
theorem Sound.exactCell {t : Tree α} (h : t.Sound) {k : ℤ}
    (hside : Exactly t.settings.rectSize (2 ^ k)) (hk : -1021 ≤ k) {id : Nat} {n : Node}
    (hn : t.node? id = some n) : n.rect.ExactCell k n.key := by
  have hlimit := (Settings.parts_of_valid h.valid).2.2
  have hshort : n.key.lod ≤ 53 := (h.lod_le hn).trans (Nat.succ_le_succ hlimit)
  obtain ⟨hcolumn, hrow⟩ := h.onGrid hn
  exact ⟨hcolumn.exactSpan hside hk n.key.x_lt_two_pow hshort,
    hrow.exactSpan hside hk n.key.y_lt_two_pow hshort⟩

/-- A node that may be split is halved without rounding. -/
theorem Sound.exactHalves {t : Tree α} (h : t.Sound) {k : ℤ}
    (hside : Exactly t.settings.rectSize (2 ^ k)) (hk : -1021 ≤ k) {id : Nat} {n : Node}
    (hn : t.node? id = some n) (hlod : n.key.lod ≤ t.settings.lodThreshold.toNat) :
    ExactHalves k n.key.lod n.key.x n.rect.minX n.rect.maxX ∧
      ExactHalves k n.key.lod n.key.y n.rect.minY n.rect.maxY := by
  have hlimit := (Settings.parts_of_valid h.valid).2.2
  have hshort : n.key.lod + 1 ≤ 53 := Nat.succ_le_succ (hlod.trans hlimit)
  obtain ⟨hcolumn, hrow⟩ := h.onGrid hn
  exact ⟨hcolumn.exactHalves hside hk n.key.x_lt_two_pow hshort,
    hrow.exactHalves hside hk n.key.y_lt_two_pow hshort⟩

/-- **Keys and rectangles agree where halving is exact.**  No double is as great as `2 ^ 1024`, so
there is no other bound for the exponent. -/
theorem dyadic_of_reachable {t : Tree α} (h : t.Reachable) {k : ℤ}
    (hside : value t.settings.rectSize = 2 ^ k) (hk : -1021 ≤ k) : t.Dyadic k := by
  have hsound := Sound.of_reachable h
  have hexact : Exactly t.settings.rectSize (2 ^ k) :=
    ⟨(Settings.parts_of_valid hsound.valid).1, hside⟩
  have hcell : ∀ {id : Nat} {n : Node}, t.node? id = some n → n.rect.ExactCell k n.key :=
    hsound.exactCell hexact hk
  exact
    { cell := hcell
      split := hsound.exactHalves hexact hk
      column := fun hn => (hcell hn).x.floor_number
      row := fun hn => (hcell hn).y.floor_number
      wide := fun hn => ⟨(hcell hn).x.extent_pos, (hcell hn).y.extent_pos⟩ }

/-- Keys and rectangles agree in the small tree, subdivided, whose region is the unit square. -/
theorem dyadic_crossing :
    let t := crossing.afterAll [.subdivide]
    t.Reachable ∧ t.isSubdivided = true ∧ value t.settings.rectSize = 2 ^ (0 : ℤ) ∧
      (-1021 : ℤ) ≤ 0 ∧ t.Dyadic 0 := by
  have hreachable := reachable_crossing.afterAll [.subdivide]
  have hunit : value (crossing.afterAll [.subdivide]).settings.rectSize = 2 ^ (0 : ℤ) := by
    rw [(Sound.of_reachable reachable_crossing).settings_afterAll]
    exact value_one
  exact ⟨hreachable, isSubdivided_crossing, hunit, by decide,
    dyadic_of_reachable hreachable hunit (by decide)⟩

end Tree

end QuadCode
