import QuadCode.Proofs.Tree.Location
import QuadCode.Proofs.Tree.PrefixCode

/-!
# Coarser and finer trees

A tree over the same region that holds more points, splits nodes with fewer of them and goes deeper
splits every node that the other tree splits.  Since the cells depend on the region only, it has all
the cells of the other tree, and cuts the leaves of that tree further.  A location leads to the same
cells in both trees as long as they are split in both, so the leaf that it leads to in the coarser
tree is passed on the way to its leaf in the finer one.

Main statements:

* `Finer.exists_node`: a finer tree has all the cells of the coarser one;
* `Finer.existsUnique_leaf`: the code of each of its leaves begins with the code of exactly one leaf
  of the coarser tree;
* `Finer.descend_prefix`: the leaf that a location leads to in the coarser tree is passed on the way
  to the leaf that it leads to in the finer one.
-/

namespace QuadCode

open Subdivision

variable {α : Type}

/-- Nodes of two trees that stand for the same cell. -/
structure Node.SameCell (n m : Node) : Prop where
  key : m.key = n.key
  rect : m.rect = n.rect

/-- The children of nodes for the same cell stand for the same cells. -/
theorem Node.SameCell.childIn {points points' : Array (Point α)} {n m c c' : Node} {q : Quadrant}
    (h : n.SameCell m) (hc : n.childIn points q = .ok c) (hc' : m.childIn points' q = .ok c') :
    c.SameCell c' := by
  obtain ⟨hkey, hrect, -, -⟩ := childIn_parts hc
  obtain ⟨hkey', hrect', -, -⟩ := childIn_parts hc'
  rw [h.key, hkey, Except.ok.injEq] at hkey'
  exact ⟨hkey'.symm, by rw [hrect', hrect, h.rect]⟩

namespace Tree

/-- A tree that cuts the cells of another one further: it has the same region, holds all points of
the other tree and maybe more, and its thresholds stop it less. -/
structure Finer (a b : Tree α) : Prop where
  region : b.settings.rectSize = a.settings.rectSize
  splitThreshold : b.settings.splitThreshold ≤ a.settings.splitThreshold
  lodThreshold : a.settings.lodThreshold ≤ b.settings.lodThreshold
  points : ∀ p ∈ a.points, ∃ q ∈ b.points, (p.toLocation == q.toLocation) = true ∧ p.data = q.data

variable {a b : Tree α}

/-- The roots of trees with the same region stand for the same cell. -/
theorem Finer.sameCell_root (h : a.Finer b) (ha : a.Sound) (hb : b.Sound) :
    ∃ n m, a.node? 0 = some n ∧ b.node? 0 = some m ∧ n.SameCell m := by
  obtain ⟨_, hgrowth⟩ := ha.growth
  obtain ⟨_, hgrowth'⟩ := hb.growth
  obtain ⟨n, hn, hbare⟩ := hgrowth.first
  obtain ⟨m, hm, hbare'⟩ := hgrowth'.first
  have hkey : m.bare.key = n.bare.key := by
    rw [hbare, hbare']
    rfl
  have hrect : m.bare.rect = n.bare.rect := by
    rw [hbare, hbare']
    exact congrArg Rect.square h.region
  exact ⟨n, m, hn, hm, hkey, hrect⟩

/-- The children of a node have counterparts among the children of its counterpart. -/
theorem Sound.sameCell_kids (ha : a.Sound) (hb : b.Sound) {i j : Nat} {n m : Node}
    (hn : a.node? i = some n) (hm : b.node? j = some m) (hsame : n.SameCell m)
    {kids kids' : Quadrants Nat} (hkids : n.children = some kids)
    (hkids' : m.children = some kids') (q : Quadrant) :
    ∃ c c', a.node? (kids.get q) = some c ∧ b.node? (kids'.get q) = some c' ∧ c.SameCell c' := by
  obtain ⟨_, hgrowth⟩ := ha.growth
  obtain ⟨_, hgrowth'⟩ := hb.growth
  obtain ⟨c, hc, hchild⟩ := hgrowth.child hn hkids q
  obtain ⟨c', hc', hchild'⟩ := hgrowth'.child hm hkids' q
  obtain ⟨hkey, hrect⟩ := hsame.childIn hchild hchild'
  exact ⟨c, c', hc, hc', hkey, hrect⟩

/-- A location leads further down: the path of a node begins that of the leaf it leads to. -/
theorem Sound.path_prefix_descend (ha : a.Sound) (l : Location) {i : Nat} {n leaf : Node}
    (hn : a.node? i = some n) (hleaf : descend a.nodes l i = some leaf) :
    n.key.path <+: leaf.key.path := by
  obtain ⟨_, hgrowth⟩ := ha.growth
  refine hgrowth.leaf_induction (P := fun i n => descend a.nodes l i = some leaf →
    n.key.path <+: leaf.key.path) ?_ ?_ hn hleaf
  · intro i n hn hchildless hleaf
    rw [descend_leaf hn hchildless, Option.some.injEq] at hleaf
    rw [hleaf]
  · intro i n kids hn hkids hchildren hleaf
    rw [hgrowth.descend_branch l hn hkids] at hleaf
    obtain ⟨c, -, hc, hbelow⟩ := hchildren (n.rect.quadrantOf l)
    have hpath : c.key.path = n.key.path ++ [n.rect.quadrantOf l] :=
      Key.path_child (Node.childIn_parts hc).1
    have hprefix := hbelow hleaf
    rw [hpath] at hprefix
    exact (List.prefix_append _ _).trans hprefix

/-- A cell holds no fewer points in the finer tree. -/
theorem Finer.size_le (h : a.Finer b) (ha : a.Sound) (hb : b.Sound)
    (hdistinct : (a.points.toList.map Point.data).Nodup) {i j : Nat} {n m : Node}
    (hn : a.node? i = some n) (hm : b.node? j = some m) (hsame : n.SameCell m) :
    n.points.size ≤ m.points.size := by
  have hexact := ha.complete.exact hn
  have hexact' := hb.complete.exact hm
  -- Each point of the node has a counterpart in the other node, and its payload tells which.
  have hcounterpart : ∀ k ∈ n.points, ∃ k' ∈ m.points, ∃ p q, a.points[k]? = some p ∧
      b.points[k']? = some q ∧ p.data = q.data := by
    intro k hk
    obtain ⟨p, hp, hin⟩ := (hexact.mem_iff k).mp hk
    obtain ⟨q, hq, hplace, hdata⟩ := h.points p (Array.mem_of_getElem? hp)
    obtain ⟨k', hk'⟩ := Array.mem_iff_getElem?.mp hq
    refine ⟨k', (hexact'.mem_iff k').mpr ⟨q, hk', ?_⟩, p, q, hp, hk', hdata⟩
    rw [hsame.rect, ← Rect.contains_congr hplace]
    exact hin
  choose! counterpart hmem hparts using hcounterpart
  have hnodup : (n.points.toList.map counterpart).Nodup := by
    refine List.Nodup.map_on ?_ (hexact.increasing.imp Nat.ne_of_lt)
    intro k hk k' hk' heq
    obtain ⟨p, q, hp, hq, hdata⟩ := hparts k (Array.mem_toList_iff.mp hk)
    obtain ⟨p', q', hp', hq', hdata'⟩ := hparts k' (Array.mem_toList_iff.mp hk')
    rw [heq, hq', Option.some.injEq] at hq
    exact position_unique hdistinct hp hp' (by rw [hdata, hdata', hq])
  have hsubset : n.points.toList.map counterpart ⊆ m.points.toList := by
    intro k' hk'
    obtain ⟨k, hk, rfl⟩ := List.mem_map.mp hk'
    exact Array.mem_toList_iff.mpr (hmem k (Array.mem_toList_iff.mp hk))
  simpa using (hnodup.subperm hsubset).length_le

section

variable (h : a.Finer b) (ha : a.Sound) (hb : b.Sound) (hdone : b.isSubdivided = true)
  (hdistinct : (a.points.toList.map Point.data).Nodup)
include h ha hb hdone hdistinct

/-- A node with children has a counterpart with children. -/
theorem Finer.exists_children {i j : Nat} {n m : Node} (hn : a.node? i = some n)
    (hm : b.node? j = some m) (hsame : n.SameCell m) {kids : Quadrants Nat}
    (hkids : n.children = some kids) : ∃ kids', m.children = some kids' := by
  obtain ⟨_, hgrowth⟩ := ha.growth
  obtain ⟨hmany, hlod⟩ := hgrowth.divided hn hkids
  have hsize := h.size_le ha hb hdistinct hn hm hsame
  have hsplit := UInt64.le_iff_toNat_le.mp h.splitThreshold
  have hdeep := UInt32.le_iff_toNat_le.mp h.lodThreshold
  cases hkids' : m.children with
  | some kids' => exact ⟨kids', rfl⟩
  | none =>
      rcases (hb.growth_of_isSubdivided hdone).stopped hm hkids' List.not_mem_nil with hfew | hlimit
      · omega
      · rw [hsame.key] at hlimit
        omega

/-- **A finer tree has all the cells of the coarser one.** -/
theorem Finer.exists_node {i : Nat} {n : Node} (hn : a.node? i = some n) :
    ∃ j m, b.node? j = some m ∧ n.SameCell m := by
  obtain ⟨_, hgrowth⟩ := ha.growth
  induction i using Nat.strongRecOn generalizing n with
  | ind i ih =>
      rcases hgrowth.cell_origin rfl hn with ⟨rfl, -⟩ | ⟨p, q, parent, hlt, hparent, hlink, -⟩
      · obtain ⟨n', m, hn', hm, hsame⟩ := h.sameCell_root ha hb
        obtain rfl := Option.some.inj (hn.symm.trans hn')
        exact ⟨0, m, hm, hsame⟩
      · obtain ⟨kids, hkids, rfl⟩ := hlink.children hparent
        obtain ⟨j, m, hm, hsame⟩ := ih p hlt hparent
        obtain ⟨kids', hkids'⟩ := h.exists_children ha hb hdone hdistinct hparent hm hsame hkids
        obtain ⟨c, c', hc, hc', hsame'⟩ := ha.sameCell_kids hb hparent hm hsame hkids hkids' q
        obtain rfl := Option.some.inj (hn.symm.trans hc)
        exact ⟨_, c', hc', hsame'⟩

/-- **The leaves of a finer tree lie below leaves of the coarser one.**  The path of each of them
begins with that of exactly one leaf of the coarser tree. -/
theorem Finer.existsUnique_leaf {leaf : Node} (hleaf : leaf ∈ b.leaves) :
    ∃! i : Nat, ∃ above, a.leaves[i]? = some above ∧ above.key.path <+: leaf.key.path := by
  obtain ⟨_, hgrowth⟩ := ha.growth
  obtain ⟨_, hgrowth'⟩ := hb.growth
  obtain ⟨hchildless, j, hj⟩ := hb.mem_leaves_iff.mp hleaf
  have hchildless := Node.isLeaf_iff.mp hchildless
  -- No node with children has the path of the leaf, since its counterpart has children as well.
  have hne : ∀ {id : Nat} {n : Node} {kids : Quadrants Nat}, a.nodes[id]? = some n →
      n.children = some kids → n.key.path ≠ leaf.key.path := by
    intro id n kids hn hkids hpath
    obtain ⟨j', m, hm, hsame⟩ := h.exists_node ha hb hdone hdistinct hn
    obtain ⟨kids', hkids'⟩ := h.exists_children ha hb hdone hdistinct hn hm hsame hkids
    obtain rfl := hgrowth'.place_unique rfl hm hj (by rw [hsame.key, hpath])
    obtain rfl := Option.some.inj (hj.symm.trans hm)
    rw [hchildless] at hkids'
    cases hkids'
  obtain ⟨root, hroot, hbare⟩ := hgrowth.first
  have hstart : root.key.path <+: leaf.key.path := by
    have hkey : root.key = Key.root := congrArg Node.key hbare
    rw [hkey]
    exact List.nil_prefix
  obtain ⟨k, hk, above, habove, hprefix⟩ := hgrowth.exists_leaf_prefix_of_ne hne hroot hstart
  obtain ⟨i, hi⟩ := List.mem_iff_getElem?.mp
    (List.mem_filterMap.mpr ⟨k, hk, habove⟩ : above ∈ a.leaves)
  refine ⟨i, ⟨above, hi, hprefix⟩, ?_⟩
  rintro i' ⟨above', hi', hprefix'⟩
  rcases List.prefix_or_prefix_of_prefix hprefix hprefix' with hfirst | hsecond
  · exact (ha.leaf_free hi hi' hfirst).symm
  · exact ha.leaf_free hi' hi hsecond

/-- **A location leads along one path in both trees**, which only goes on further in the finer
tree. -/
theorem Finer.descend_prefix {l l' : Location} (hplace : (l == l') = true) {i j : Nat}
    {n m leaf leaf' : Node} (hn : a.node? i = some n) (hm : b.node? j = some m)
    (hsame : n.SameCell m) (hleaf : descend a.nodes l i = some leaf)
    (hleaf' : descend b.nodes l' j = some leaf') : leaf.key.path <+: leaf'.key.path := by
  obtain ⟨_, hgrowth⟩ := ha.growth
  obtain ⟨_, hgrowth'⟩ := hb.growth
  refine hgrowth.leaf_induction (P := fun i n => ∀ j m, b.node? j = some m → n.SameCell m →
    descend a.nodes l i = some leaf → descend b.nodes l' j = some leaf' →
      leaf.key.path <+: leaf'.key.path) ?_ ?_ hn j m hm hsame hleaf hleaf'
  · intro i n hn hchildless j m hm hsame hleaf hleaf'
    rw [descend_leaf hn hchildless, Option.some.injEq] at hleaf
    rw [← hleaf, ← hsame.key]
    exact hb.path_prefix_descend l' hm hleaf'
  · intro i n kids hn hkids hchildren j m hm hsame hleaf hleaf'
    obtain ⟨kids', hkids'⟩ := h.exists_children ha hb hdone hdistinct hn hm hsame hkids
    rw [hgrowth.descend_branch l hn hkids] at hleaf
    rw [hgrowth'.descend_branch l' hm hkids', hsame.rect, ← Rect.quadrantOf_congr hplace] at hleaf'
    obtain ⟨c, c', hc, hc', hsame'⟩ :=
      ha.sameCell_kids hb hn hm hsame hkids hkids' (n.rect.quadrantOf l)
    obtain ⟨c'', hc'', -, hbelow⟩ := hchildren (n.rect.quadrantOf l)
    obtain rfl := Option.some.inj (hc.symm.trans hc'')
    exact hbelow _ c' hc' hsame' hleaf hleaf'

end

end Tree

end QuadCode
