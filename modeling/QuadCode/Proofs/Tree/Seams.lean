import QuadCode.Proofs.Geometry.GridLines
import QuadCode.Proofs.Tree.Lifecycle
import QuadCode.Proofs.Tree.PrefixCode

/-!
# No cracks and no overlaps

Every cell of a tree stands between the grid lines that its key tells, so its bounds on an axis
depend on its level and its coordinate on that axis, and on nothing else: not on the points, not on
the thresholds, and not on the splits that led to it.  Neighbouring cells meet in the very same
line, and cells of which neither lies below the other have no interior point in common.

Main statements:

* `Sound.onGrid`: the cell of a node stands between the grid lines that its key tells;
* `Growth.above_of_prefix`: a node whose path begins that of another one is above it;
* `seamless_of_reachable`: the cells of a tree, and of two trees over one region, leave no cracks
  and do not overlap.
-/

namespace QuadCode

open Rect

variable {α β : Type}

/-- The links lead from one node to another, which may be the same. -/
def Above (nodes : Array Node) : ℕ → ℕ → Prop :=
  Relation.ReflTransGen fun p c => ∃ q, Linked nodes p q c

section

variable {points : Array (Point α)} {splitThreshold limit : ℕ} {root : Node} {nodes : Array Node}
  {waiting : List ℕ}

/-- If the cell of the root stands between the lines that its key tells, so do all cells. -/
theorem Growth.onGrid (h : Growth points splitThreshold limit root nodes waiting) {side : Float}
    (hroot : OnGrid side root.key root.rect) {id : ℕ} {n : Node} (hn : nodes[id]? = some n) :
    OnGrid side n.key n.rect := by
  refine h.node_induction (P := fun n => OnGrid side n.key n.rect) hroot ?_ hn
  intro n c q hgrid hc
  obtain ⟨hkey, hrect, -⟩ := Node.childIn_parts hc
  rw [hrect]
  exact hgrid.child hkey

/-- A node whose path begins the path of another one is above it. -/
theorem Growth.above_of_prefix (h : Growth points splitThreshold limit root nodes waiting)
    (hroot : root.key = Key.root) {i j : ℕ} {n m : Node} (hn : nodes[i]? = some n)
    (hm : nodes[j]? = some m) (hstart : n.key.path <+: m.key.path) : Above nodes i j := by
  -- Unless the paths are the same, the path begins that of the other node's parent too.
  induction j using Nat.strongRecOn generalizing m with
  | ind j ih =>
      rcases h.origin hroot hm with ⟨-, hnil⟩ | ⟨p, q, parent, hlt, hparent, hlink, hstep⟩
      · have hpath : n.key.path = m.key.path := by
          rw [hnil] at hstart ⊢
          exact List.prefix_nil.mp hstart
        rw [h.place_unique hroot hn hm hpath]
        exact Relation.ReflTransGen.refl
      · rw [hstep, List.prefix_concat_iff] at hstart
        rcases hstart with hpath | hstart
        · rw [h.place_unique hroot hn hm (hpath.trans hstep.symm)]
          exact Relation.ReflTransGen.refl
        · exact (ih p hlt hparent hstart).tail ⟨q, hlink⟩

end

namespace Tree

/-- The cells of two trees over one region fit together.  Their bounds on an axis depend on the
level and the coordinate on that axis only; where one column or row follows another they share one
line; the last ones end where the region ends; and within a tree, nodes of which neither is above
the other have no interior point in common. -/
structure Seamless (t : Tree α) (t' : Tree β) : Prop where
  column : ∀ {i j : ℕ} {n m : Node}, t.node? i = some n → t'.node? j = some m →
    n.key.lod = m.key.lod → n.key.x = m.key.x →
      n.rect.minX = m.rect.minX ∧ n.rect.maxX = m.rect.maxX
  row : ∀ {i j : ℕ} {n m : Node}, t.node? i = some n → t'.node? j = some m →
    n.key.lod = m.key.lod → n.key.y = m.key.y →
      n.rect.minY = m.rect.minY ∧ n.rect.maxY = m.rect.maxY
  nextColumn : ∀ {i j : ℕ} {n m : Node}, t.node? i = some n → t'.node? j = some m →
    n.key.lod = m.key.lod → n.key.x + 1 = m.key.x → n.rect.maxX = m.rect.minX
  nextRow : ∀ {i j : ℕ} {n m : Node}, t.node? i = some n → t'.node? j = some m →
    n.key.lod = m.key.lod → n.key.y + 1 = m.key.y → n.rect.maxY = m.rect.minY
  lastColumn : ∀ {i : ℕ} {n : Node}, t.node? i = some n → n.key.x + 1 = 2 ^ n.key.lod →
    n.rect.maxX = t.settings.rectSize
  lastRow : ∀ {i : ℕ} {n : Node}, t.node? i = some n → n.key.y + 1 = 2 ^ n.key.lod →
    n.rect.maxY = t.settings.rectSize
  disjoint : ∀ {i j : ℕ} {n m : Node}, t.node? i = some n → t.node? j = some m →
    ¬ Above t.nodes i j → ¬ Above t.nodes j i → Disjoint n.rect.interior m.rect.interior

/-- The cell of a node stands between the grid lines that its key tells. -/
theorem Sound.onGrid {t : Tree α} (h : t.Sound) {id : ℕ} {n : Node} (hn : t.node? id = some n) :
    OnGrid t.settings.rectSize n.key n.rect := by
  obtain ⟨waiting, hgrowth⟩ := h.growth
  exact hgrowth.onGrid ⟨⟨rfl, rfl⟩, ⟨rfl, rfl⟩⟩ hn

/-- **Cells leave no cracks and do not overlap**, within a tree and between trees over one region,
although every mid line is rounded. -/
theorem seamless_of_reachable {t : Tree α} {t' : Tree β} (h : t.Reachable) (h' : t'.Reachable)
    (hside : t.settings.rectSize = t'.settings.rectSize) : Seamless t t' := by
  have hsound := Sound.of_reachable h
  have hgrid : ∀ {i : ℕ} {n : Node}, t.node? i = some n →
      OnGrid t.settings.rectSize n.key n.rect := hsound.onGrid
  have hgrid' : ∀ {j : ℕ} {m : Node}, t'.node? j = some m →
      OnGrid t.settings.rectSize m.key m.rect := hside ▸ (Sound.of_reachable h').onGrid
  refine
    { column := ?_
      row := ?_
      nextColumn := ?_
      nextRow := ?_
      lastColumn := ?_
      lastRow := ?_
      disjoint := ?_ }
  · intro i j n m hn hm hlod hx
    obtain ⟨hlower, hupper⟩ := (hgrid hn).x
    obtain ⟨hlower', hupper'⟩ := (hgrid' hm).x
    rw [hlower, hupper, hlower', hupper', hlod, hx]
    exact ⟨rfl, rfl⟩
  · intro i j n m hn hm hlod hy
    obtain ⟨hlower, hupper⟩ := (hgrid hn).y
    obtain ⟨hlower', hupper'⟩ := (hgrid' hm).y
    rw [hlower, hupper, hlower', hupper', hlod, hy]
    exact ⟨rfl, rfl⟩
  · intro i j n m hn hm hlod hx
    rw [(hgrid hn).x.upper, (hgrid' hm).x.lower, hlod, hx]
  · intro i j n m hn hm hlod hy
    rw [(hgrid hn).y.upper, (hgrid' hm).y.lower, hlod, hy]
  · intro i n hn hx
    rw [(hgrid hn).x.upper, hx, gridLine_pow]
  · intro i n hn hy
    rw [(hgrid hn).y.upper, hy, gridLine_pow]
  · intro i j n m hn hm hapart hapart'
    obtain ⟨waiting, hgrowth⟩ := hsound.growth
    exact (hgrid hn).disjoint hsound.proper_undivided.x (hgrid hm)
      (fun hstart => hapart (hgrowth.above_of_prefix rfl hn hm hstart))
      (fun hstart => hapart' (hgrowth.above_of_prefix rfl hm hn hstart))

/-- A history does not change the settings. -/
theorem Sound.settings_afterAll {t : Tree α} (h : t.Sound) (history : List (Step α)) :
    (t.afterAll history).settings = t.settings := by
  cases hfresh : t.isSubdivided with
  | true => rw [afterAll_of_isSubdivided hfresh]
  | false =>
      obtain ⟨arena, -, hafter⟩ := exists_afterAll h hfresh history
      rw [hafter]
      rfl

/-- The small tree and the tree with one point more fit together, subdivided. -/
theorem seamless_crossing :
    let a := crossing.afterAll [.subdivide]
    let b := crossing.afterAll [.add ⟨⟨0.1, 0.9⟩, 3⟩, .subdivide]
    a.Reachable ∧ b.Reachable ∧ a.isSubdivided = true ∧ b.isSubdivided = true ∧
      a.settings.rectSize = b.settings.rectSize ∧ Seamless a b := by
  have hsound := Sound.of_reachable reachable_crossing
  have ha := reachable_crossing.afterAll [.subdivide]
  have hb := reachable_crossing.afterAll [.add ⟨⟨0.1, 0.9⟩, 3⟩, .subdivide]
  have hside : (crossing.afterAll [.subdivide]).settings.rectSize =
      (crossing.afterAll [.add ⟨⟨0.1, 0.9⟩, 3⟩, .subdivide]).settings.rectSize := by
    rw [hsound.settings_afterAll, hsound.settings_afterAll]
  exact ⟨ha, hb, isSubdivided_crossing, hsound.isSubdivided_afterAll [.add ⟨⟨0.1, 0.9⟩, 3⟩], hside,
    seamless_of_reachable ha hb hside⟩

end Tree

end QuadCode
