import Mathlib.Algebra.BigOperators.Group.Finset.Basic
import Mathlib.Algebra.Order.BigOperators.Group.Finset
import QuadCode.Proofs.Tree.Statistics
import QuadCode.Proofs.Tree.Width

/-!
# How often a point is held

A split copies a point on a mid line into two quadrants or into all four, and it may do so at many
levels.  Still no level has more than four copies of it: the cells that hold the point go on from
it in some direction, a cell does so in every direction in which one of its quadrants does, and no
two quadrants of a cell go on in the same direction.  So in each direction the cells form a chain,
one for each level.

What follows is a count.  The leaves hold each point four times at most, so together they refer to
points no more than four times as often as there are points.  And every node that was split holds
some point at some level down to the depth limit, but no more than four of them the same point at
the same level.

Main statements:

* `Growth.path_prefix_of_goesOn`: the cells that go on in one direction form a chain;
* `Sound.countP_level_le` and `Sound.countP_leaves_le`: how many nodes of a level and how many
  leaves hold a point;
* `sparse_of_solid`: trees whose cells have a positive width and height grow linearly.
-/

namespace QuadCode

open Rect

variable {α : Type}

/-- A list whose values are in a finite set, each of them a few times at most, is not longer than
that. -/
theorem length_le_of_countP_le {β : Type} [DecidableEq β] {k : ℕ} (xs : List β) (values : Finset β)
    (hmem : ∀ x ∈ xs, x ∈ values) (hcount : ∀ x ∈ values, xs.countP (fun y => y = x) ≤ k) :
    xs.length ≤ k * values.card := by
  have hsubset : xs.toFinset ⊆ values := fun x hx => hmem x (List.mem_toFinset.mp hx)
  calc
    xs.length = ∑ x ∈ xs.toFinset, xs.count x := (List.sum_toFinset_count_eq_length xs).symm
    _ ≤ ∑ x ∈ values, xs.count x := Finset.sum_le_sum_of_subset hsubset
    _ ≤ values.card • k := Finset.sum_le_card_nsmul values _ k hcount
    _ = k * values.card := by rw [smul_eq_mul, mul_comm]

/-- There are no more than four values that have a direction each, all different. -/
theorem countP_le_four {β : Type} {xs : List β} {P : β → Bool} (side : β → Quadrant)
    (h : xs.Pairwise fun a b => P a = true → P b = true → side a ≠ side b) : xs.countP P ≤ 4 := by
  have hnodup : ((xs.filter P).map side).Nodup := by
    rw [List.Nodup, List.pairwise_map, List.pairwise_filter]
    exact h
  have hall : ((xs.filter P).map side).length ≤ Quadrant.all.length :=
    (hnodup.subperm fun q _ => Quadrant.mem_all q).length_le
  rwa [List.length_map, ← List.countP_eq_length_filter] at hall

/-- The position of the first point that a node holds, and the level of the node. -/
def Node.label (n : Node) : Nat × Nat :=
  (n.points[0]?.getD 0, n.key.lod)

section

variable {points : Array (Point α)} {splitThreshold limit : Nat} {root : Node} {nodes : Array Node}
  {waiting : List Nat}

/-- **In each direction a location has a chain of cells.**  Of two nodes whose cells go on from it in
that direction, the path of the one that is not deeper begins the path of the other. -/
theorem Growth.path_prefix_of_goesOn (h : Growth points splitThreshold limit root nodes waiting)
    (hroot : root.key = Key.root)
    (hproper : ∀ {id : Nat} {n : Node}, nodes[id]? = some n → n.rect.Proper) {side : Quadrant}
    {l : Location} {i j : Nat} {n m : Node} (hn : nodes[i]? = some n) (hm : nodes[j]? = some m)
    (hside : n.rect.GoesOn side l) (hside' : m.rect.GoesOn side l)
    (hle : n.key.lod ≤ m.key.lod) : n.key.path <+: m.key.path := by
  -- The induction is on the deeper node; the other one changes when both go up to their parents.
  induction j using Nat.strongRecOn generalizing i n m with
  | ind j ih =>
      rcases h.cell_origin hroot hn with
        ⟨-, hnil⟩ | ⟨p, q, above, -, habove, hlink, hstep, hlod, hrect⟩
      · rw [hnil]
        exact List.nil_prefix
      rcases h.cell_origin hroot hm with
        ⟨-, hnil⟩ | ⟨p', q', above', hlt, habove', hlink', hstep', hlod', hrect'⟩
      · rw [← m.key.length_path, hnil, List.length_nil] at hle
        omega
      rw [hrect'] at hside'
      have hup' : above'.rect.GoesOn side l := GoesOn.of_quadrant (hproper habove') hside'
      rcases Nat.lt_or_ge above'.key.lod n.key.lod with hsame | hhigher
      · -- Nodes of one level: their parents are one node, and so are they.
        rw [hrect] at hside
        have hup : above.rect.GoesOn side l := GoesOn.of_quadrant (hproper habove) hside
        have hpath : above.key.path = above'.key.path :=
          (ih p' hlt habove habove' hup hup' (by omega)).eq_of_length
            (by rw [Key.length_path, Key.length_path]; omega)
        obtain rfl := h.place_unique hroot habove habove' hpath
        obtain rfl := Option.some.inj (habove.symm.trans habove')
        rw [hstep, hstep', hside.quadrant_unique hside']
      · rw [hstep']
        exact (ih p' hlt hn habove' hside hup' hhigher).trans (List.prefix_append _ _)

/-- A node with children holds a point, and it does not lie below the depth limit. -/
theorem Growth.label_of_branch (h : Growth points splitThreshold limit root nodes waiting) {id : Nat}
    {n : Node} {kids : Quadrants Nat} (hn : nodes[id]? = some n) (hkids : n.children = some kids) :
    n.label.1 ∈ n.points ∧ n.key.lod ≤ limit := by
  obtain ⟨hmany, hlod⟩ := h.divided hn hkids
  have hpos : 0 < n.points.size := by omega
  refine ⟨?_, hlod⟩
  rw [Node.label, Array.getElem?_eq_getElem hpos]
  exact Array.getElem_mem hpos

end

namespace Tree

variable {t : Tree α}

theorem Sound.proper (h : t.Sound) {id : Nat} {n : Node} (hn : t.node? id = some n) :
    n.rect.Proper := by
  obtain ⟨waiting, hgrowth⟩ := h.growth
  exact (hgrowth.exact h.proper_undivided h.exact_undivided hn).1

/-- Where a point lies. -/
def locationOf (t : Tree α) (i : Nat) : Location :=
  (t.points[i]?.map Point.toLocation).getD ⟨0.0, 0.0⟩

/-- A node whose cell has different bounds goes on from the points that it holds. -/
theorem Sound.goesOn_inward (h : t.Sound) {id i : Nat} {n : Node} (hn : t.node? id = some n)
    (hsolid : n.rect.Solid) (hi : i ∈ n.points) :
    n.rect.GoesOn (n.rect.inward (t.locationOf i)) (t.locationOf i) := by
  obtain ⟨p, hp, hin⟩ := ((h.complete.exact hn).mem_iff i).mp hi
  rw [locationOf, hp]
  exact hsolid.goesOn_inward hin

/-- Of two solid nodes that hold a point and go on from it in the same direction, the path of the
one that is not deeper begins the path of the other. -/
theorem Sound.path_prefix_of_inward (h : t.Sound) {i a b : Nat} {n m : Node}
    (hn : t.node? a = some n) (hm : t.node? b = some m) (hsolid : n.rect.Solid)
    (hsolid' : m.rect.Solid) (hi : i ∈ n.points) (hi' : i ∈ m.points)
    (hside : n.rect.inward (t.locationOf i) = m.rect.inward (t.locationOf i))
    (hle : n.key.lod ≤ m.key.lod) : n.key.path <+: m.key.path := by
  obtain ⟨waiting, hgrowth⟩ := h.growth
  have hm' := h.goesOn_inward hm hsolid' hi'
  rw [← hside] at hm'
  exact hgrowth.path_prefix_of_goesOn rfl h.proper hn hm (h.goesOn_inward hn hsolid hi) hm' hle

/-- **No more than four nodes of a level hold the same point**, if the cells of that level have a
positive width and height. -/
theorem Sound.countP_level_le (h : t.Sound) (i lod : Nat)
    (hsolid : ∀ n ∈ t.nodes, n.key.lod = lod → n.rect.Solid) :
    t.nodes.countP (fun n => n.key.lod = lod ∧ i ∈ n.points) ≤ 4 := by
  rw [← Array.countP_toList]
  apply countP_le_four fun n => n.rect.inward (t.locationOf i)
  refine List.pairwise_iff_getElem.mpr ?_
  intro a b ha hb hab hn hm hside
  have hplace {k : Nat} (hk : k < t.nodes.toList.length) : t.node? k = some t.nodes.toList[k] := by
    rw [node?, ← Array.getElem?_toList, List.getElem?_eq_getElem hk]
  have hmem {k : Nat} (hk : k < t.nodes.toList.length) : t.nodes.toList[k] ∈ t.nodes :=
    Array.mem_toList_iff.mp (List.getElem_mem hk)
  obtain ⟨hlod, hi⟩ := of_decide_eq_true hn
  obtain ⟨hlod', hi'⟩ := of_decide_eq_true hm
  have hpath := h.path_prefix_of_inward (hplace ha) (hplace hb) (hsolid _ (hmem ha) hlod)
    (hsolid _ (hmem hb) hlod') hi hi' hside (by omega)
  have hsame := hpath.eq_of_length (by rw [Key.length_path, Key.length_path]; omega)
  obtain ⟨waiting, hgrowth⟩ := h.growth
  exact hab.ne (hgrowth.place_unique rfl (hplace ha) (hplace hb) hsame)

/-- **No more than four leaves hold the same point**, if all cells have a positive width and
height. -/
theorem Sound.countP_leaves_le (h : t.Sound) (i : Nat) (hsolid : ∀ n ∈ t.nodes, n.rect.Solid) :
    t.leaves.countP (fun leaf => i ∈ leaf.points) ≤ 4 := by
  apply countP_le_four fun n => n.rect.inward (t.locationOf i)
  refine h.pairwise_leaves.imp_of_mem ?_
  intro n m hn hm hfree hi hi' hside
  obtain ⟨-, a, ha⟩ := h.mem_leaves_iff.mp hn
  obtain ⟨-, b, hb⟩ := h.mem_leaves_iff.mp hm
  have hi := of_decide_eq_true hi
  have hi' := of_decide_eq_true hi'
  have hn := hsolid n (Array.mem_of_getElem? ha)
  have hm := hsolid m (Array.mem_of_getElem? hb)
  rcases Nat.le_total n.key.lod m.key.lod with hle | hle
  · exact hfree.1 (h.path_prefix_of_inward ha hb hn hm hi hi' hside hle)
  · exact hfree.2 (h.path_prefix_of_inward hb ha hm hn hi' hi hside.symm hle)

/-- The leaves refer to points four times as often as there are points, at most. -/
theorem Sound.leafPointRefs_le (h : t.Sound) (hsolid : ∀ n ∈ t.nodes, n.rect.Solid) :
    t.stats.leafPointRefs ≤ 4 * t.points.size := by
  calc
    t.stats.leafPointRefs = ∑ i ∈ Finset.range t.points.size, t.copies i := h.leafPointRefs_eq_sum
    _ ≤ (Finset.range t.points.size).card • 4 :=
      Finset.sum_le_card_nsmul _ _ 4 fun i _ => h.countP_leaves_le i hsolid
    _ = 4 * t.points.size := by rw [Finset.card_range, smul_eq_mul, mul_comm]

/-- Four nodes at most are split for each point and each level down to the depth limit. -/
theorem Sound.branchCount_le (h : t.Sound) (hsolid : ∀ n ∈ t.nodes, n.rect.Solid) :
    branchCount t.nodes ≤ 4 * (t.points.size * (t.settings.lodThreshold.toNat + 1)) := by
  obtain ⟨waiting, hgrowth⟩ := h.growth
  have hlabel {n : Node} (hn : n ∈ t.nodes) (hbranch : n.children.isSome = true) :
      n.label.1 ∈ n.points ∧ n.key.lod ≤ t.settings.lodThreshold.toNat := by
    obtain ⟨id, hid⟩ := Array.mem_iff_getElem?.mp hn
    obtain ⟨kids, hkids⟩ := Option.isSome_iff_exists.mp hbranch
    exact hgrowth.label_of_branch hid hkids
  have hcount := length_le_of_countP_le (k := 4)
    ((t.nodes.toList.filter fun n => n.children.isSome).map Node.label)
    (Finset.range t.points.size ×ˢ Finset.range (t.settings.lodThreshold.toNat + 1)) ?_ ?_
  · rwa [Finset.card_product, Finset.card_range, Finset.card_range, List.length_map,
      ← List.countP_eq_length_filter, Array.countP_toList] at hcount
  · intro x hx
    obtain ⟨n, hn, rfl⟩ := List.mem_map.mp hx
    obtain ⟨hn, hbranch⟩ := List.mem_filter.mp hn
    obtain ⟨hi, hlod⟩ := hlabel (Array.mem_toList_iff.mp hn) hbranch
    obtain ⟨id, hid⟩ := Array.mem_iff_getElem?.mp (Array.mem_toList_iff.mp hn)
    have hheld := hgrowth.held (by simp [undivided, Node.leaf]) hid _ hi
    exact Finset.mem_product.mpr
      ⟨Finset.mem_range.mpr hheld, Finset.mem_range.mpr (Nat.lt_succ_of_le hlod)⟩
  · intro x _
    have hlevel := h.countP_level_le x.1 x.2 fun n hn _ => hsolid n hn
    refine le_trans ?_ hlevel
    rw [← Array.countP_toList, List.countP_map, List.countP_filter]
    refine List.countP_mono_left fun n hn hx => ?_
    obtain ⟨hx, hbranch⟩ := Bool.and_eq_true_iff.mp hx
    obtain rfl : n.label = x := of_decide_eq_true hx
    exact decide_eq_true ⟨rfl, (hlabel (Array.mem_toList_iff.mp hn) hbranch).1⟩

/-- How far the points of a tree are copied, and how many nodes there are for them. -/
structure Sparse (t : Tree α) : Prop where
  level : ∀ i lod : Nat, t.nodes.countP (fun n => n.key.lod = lod ∧ i ∈ n.points) ≤ 4
  leaves : ∀ i : Nat, t.leaves.countP (fun leaf => i ∈ leaf.points) ≤ 4
  duplicates : t.stats.boundaryDuplicates ≤ 3 * t.points.size
  nodes : t.nodes.size ≤ 1 + 16 * t.points.size * (t.settings.lodThreshold.toNat + 1)

/-- **Subdivision grows linearly.**  In a tree whose cells all have a positive width and height, four
nodes of a level at most hold the same point, and four leaves at most.  So the leaves refer to points
no more than three times beyond once each, and there are no more nodes than sixteen for each point
and level, and the root. -/
theorem sparse_of_solid {t : Tree α} (h : t.Reachable) (hsolid : ∀ n ∈ t.nodes, n.rect.Solid) :
    t.Sparse := by
  have hsound := Sound.of_reachable h
  obtain ⟨waiting, hgrowth⟩ := hsound.growth
  refine
    { level := fun i lod => hsound.countP_level_le i lod fun n hn _ => hsolid n hn
      leaves := fun i => hsound.countP_leaves_le i hsolid
      duplicates := ?_
      nodes := ?_ }
  · have hrefs := hsound.leafPointRefs_le hsolid
    have hpoints : t.stats.points = t.points.size := rfl
    rw [TreeStats.boundaryDuplicates, hpoints]
    omega
  · have hbranches := hsound.branchCount_le hsolid
    rw [hgrowth.size_eq, mul_assoc]
    omega

/-- The cells of the small tree, subdivided, have a positive width and height. -/
theorem solid_crossing : ∀ n ∈ (crossing.afterAll [.subdivide]).nodes, n.rect.Solid := by
  obtain ⟨arena, hafter⟩ := exists_afterAll_crossing
  have hsettings : (crossing.afterAll [.subdivide]).settings = crossing.settings := by
    rw [hafter]
  apply (Sound.of_reachable (reachable_crossing.afterAll _)).all_solid
  rw [hsettings]
  exact ⟨by decide +kernel, Or.inl (by decide)⟩

/-- The small tree, subdivided, is sparse. -/
theorem sparse_crossing :
    let t := crossing.afterAll [.subdivide]
    t.Reachable ∧ t.isSubdivided = true ∧ (∀ n ∈ t.nodes, n.rect.Solid) ∧ t.Sparse := by
  have hreachable := reachable_crossing.afterAll [.subdivide]
  exact ⟨hreachable, isSubdivided_crossing, solid_crossing,
    sparse_of_solid hreachable solid_crossing⟩

end Tree

end QuadCode
