import Mathlib.Algebra.BigOperators.Group.Finset.Basic
import Mathlib.Order.Bounds.Defs
import QuadCode.Proofs.Tree.LeafIndex

/-!
# The statistics of a tree

Some of the numbers are read off the whole node array, others off the leaves that are found from the
root.  They fit together since each childless node of the array is found exactly once: four new
nodes for each node that was split, three of them beyond the leaf that it was before.

The leaves refer to points as often as they hold them.  Counting the leaves point by point instead
of the points leaf by leaf gives the same number, since no leaf holds a point twice, and since every
point is held by some leaf, the number of duplicates is what remains without the first copy of each
point.

Main statements:

* `Sound.leaves_perm`: the leaves that are found from the root are the childless nodes of the array;
* `Sound.isGreatest_maxLod`: the deepest node is a leaf;
* `Sound.leafPointRefs_eq_sum`: the references of the leaves, point by point;
* `counted_of_reachable`: the counting laws of every tree.
-/

namespace QuadCode

variable {α : Type}

/-- What is in lists without repetitions is counted once for each list that it is in. -/
theorem countP_flatMap_of_nodup {β : Type} {xs : List β} {f : β → List ℕ} (h : ∀ x ∈ xs, (f x).Nodup)
    (a : ℕ) : (xs.flatMap f).countP (fun b => b = a) = xs.countP fun x => a ∈ f x := by
  induction xs with
  | nil => rfl
  | cons x xs ih =>
      have hfirst : (f x).countP (fun b => b = a) = if a ∈ f x then 1 else 0 :=
        (h x List.mem_cons_self).count
      rw [List.flatMap_cons, List.countP_append, List.countP_cons,
        ih fun y hy => h y (List.mem_cons_of_mem _ hy), hfirst, add_comm]
      simp

/-- A node is childless or has children. -/
theorem countP_isLeaf_add_branchCount (nodes : Array Node) :
    nodes.countP Node.isLeaf + branchCount nodes = nodes.size := by
  rw [branchCount, ← Array.countP_toList, ← Array.countP_toList, ← Array.length_toList,
    List.length_eq_countP_add_countP Node.isLeaf]
  congr 1
  refine List.countP_congr fun n _ => ?_
  rw [Node.isLeaf]
  cases n.children <;> simp

namespace Tree

variable {t : Tree α}

/-- How many leaves hold the point at a position. -/
def copies (t : Tree α) (i : Nat) : Nat :=
  t.leaves.countP fun leaf => i ∈ leaf.points

/-- A leaf holds exactly what its rectangle contains. -/
theorem Sound.exact_leaf (h : t.Sound) {leaf : Node} (hleaf : leaf ∈ t.leaves) :
    leaf.Exact t.points := by
  obtain ⟨-, id, hid⟩ := h.mem_leaves_iff.mp hleaf
  exact h.complete.exact hid

/-- No node stands at two places. -/
theorem Sound.nodup_nodes (h : t.Sound) : t.nodes.toList.Nodup := by
  obtain ⟨waiting, hgrowth⟩ := h.growth
  refine List.nodup_iff_getElem?_ne_getElem?.mpr ?_
  intro i j hlt hj heq
  have hm : t.nodes[j]? = some t.nodes.toList[j] := by
    rw [← Array.getElem?_toList, List.getElem?_eq_getElem hj]
  have hn : t.nodes[i]? = some t.nodes.toList[j] := by
    rw [← Array.getElem?_toList, heq, Array.getElem?_toList, hm]
  exact hlt.ne (hgrowth.place_unique rfl hn hm rfl)

/-- **The leaves that are found from the root are the childless nodes of the array**, each found
once. -/
theorem Sound.leaves_perm (h : t.Sound) : t.leaves.Perm (t.nodes.toList.filter Node.isLeaf) := by
  have hleaves : t.leaves.Nodup := by
    refine h.pairwise_code.imp fun hne heq => hne ?_
    rw [heq]
  rw [List.perm_ext_iff_of_nodup hleaves (h.nodup_nodes.filter _)]
  intro leaf
  rw [h.mem_leaves_iff, List.mem_filter, Array.mem_toList_iff, Array.mem_iff_getElem?, and_comm]
  rfl

/-- A split makes three leaves out of one when four take its place. -/
theorem Sound.length_leaves (h : t.Sound) : t.leaves.length = 1 + 3 * branchCount t.nodes := by
  obtain ⟨waiting, hgrowth⟩ := h.growth
  have hsize := hgrowth.size_eq
  have hparts := countP_isLeaf_add_branchCount t.nodes
  rw [h.leaves_perm.length_eq, ← List.countP_eq_length_filter, Array.countP_toList]
  omega

/-- From every node some leaf is found whose path goes on from that of the node. -/
theorem Sound.exists_leaf_below (h : t.Sound) {id : Nat} {n : Node} (hn : t.node? id = some n) :
    ∃ leaf ∈ t.leaves, n.key.path <+: leaf.key.path := by
  obtain ⟨waiting, hgrowth⟩ := h.growth
  -- A long enough way down from the node comes to a leaf.
  let below : List Quadrant := List.replicate (t.settings.lodThreshold.toNat + 1) .bottomLeft
  have hlong : t.settings.lodThreshold.toNat < (n.key.path ++ below).length := by
    rw [List.length_append, List.length_replicate]
    omega
  obtain ⟨j, hj, -⟩ := hgrowth.exists_leaf_prefix hlong hn (List.prefix_append _ _)
  obtain ⟨leaf, hleaf, -, hstart⟩ := hgrowth.leaf_of_mem_leavesBelow hn hj
  have hroot := (hgrowth.leavesBelow_infix_root rfl hn).subset hj
  exact ⟨leaf, List.mem_filterMap.mpr ⟨j, hroot, hleaf⟩, hstart⟩

/-- The deepest level is the level of some node, and no node lies deeper. -/
theorem Sound.maxLod_spec (h : t.Sound) :
    (∃ n ∈ t.nodes, n.key.lod = t.stats.maxLod) ∧ ∀ n ∈ t.nodes, n.key.lod ≤ t.stats.maxLod := by
  have hmax : (0 :: t.nodes.toList.map fun n => n.key.lod).max? = some t.stats.maxLod := by
    rw [List.max?_cons', List.foldl_map, Array.foldl_toList]
    rfl
  obtain ⟨hmem, hle⟩ := List.max?_eq_some_iff.mp hmax
  have hbound : ∀ n ∈ t.nodes, n.key.lod ≤ t.stats.maxLod := fun n hn =>
    hle _ (List.mem_cons_of_mem _ (List.mem_map.mpr ⟨n, Array.mem_toList_iff.mpr hn, rfl⟩))
  refine ⟨?_, hbound⟩
  rcases List.mem_cons.mp hmem with hzero | hmem
  · obtain ⟨waiting, hgrowth⟩ := h.growth
    obtain ⟨root, hroot, hbare⟩ := hgrowth.first
    have hkey : root.key = Key.root := congrArg Node.key hbare
    exact ⟨root, Array.mem_of_getElem? hroot, by rw [hzero, hkey]; rfl⟩
  · obtain ⟨n, hn, hlod⟩ := List.mem_map.mp hmem
    exact ⟨n, Array.mem_toList_iff.mp hn, hlod⟩

/-- **The deepest level is the length of the longest leaf code.**  A deepest node leads to a leaf,
which is not deeper, and so the node is that leaf. -/
theorem Sound.isGreatest_maxLod (h : t.Sound) :
    IsGreatest {length | ∃ leaf ∈ t.leaves, leaf.key.code.length = length} t.stats.maxLod := by
  obtain ⟨⟨n, hn, hlod⟩, hbound⟩ := h.maxLod_spec
  have hleaf {leaf : Node} (hmem : leaf ∈ t.leaves) : leaf.key.code.length ≤ t.stats.maxLod := by
    obtain ⟨-, id, hid⟩ := h.mem_leaves_iff.mp hmem
    rw [Key.length_code]
    exact hbound leaf (Array.mem_of_getElem? hid)
  constructor
  · obtain ⟨id, hid⟩ := Array.mem_iff_getElem?.mp hn
    obtain ⟨leaf, hmem, hstart⟩ := h.exists_leaf_below hid
    have hle := hstart.length_le
    rw [Key.length_path, Key.length_path, ← leaf.key.length_code, hlod] at hle
    exact ⟨leaf, hmem, le_antisymm (hleaf hmem) hle⟩
  · rintro length ⟨leaf, hmem, rfl⟩
    exact hleaf hmem

/-- **The leaves refer to each point once for every leaf that holds it.** -/
theorem Sound.leafPointRefs_eq_sum (h : t.Sound) :
    t.stats.leafPointRefs = ∑ i ∈ Finset.range t.points.size, t.copies i := by
  have hlength : t.stats.leafPointRefs = (t.leaves.flatMap fun leaf => leaf.points.toList).length := by
    rw [stats, List.length_flatMap, List.sum_eq_foldl, List.foldl_map]
    rfl
  have hcount (i : Nat) :
      (t.leaves.flatMap fun leaf => leaf.points.toList).count i = t.copies i := by
    have hflat := countP_flatMap_of_nodup (f := fun leaf : Node => leaf.points.toList)
      (fun leaf hleaf => (h.exact_leaf hleaf).increasing.imp Nat.ne_of_lt) i
    simpa [copies, List.count, beq_eq_decide] using hflat
  have hrange : ∀ i ∈ ((t.leaves.flatMap fun leaf => leaf.points.toList : List Nat) : Multiset Nat),
      i ∈ Finset.range t.points.size := by
    intro i hi
    obtain ⟨leaf, hleaf, hi⟩ := List.mem_flatMap.mp hi
    obtain ⟨p, hp, -⟩ := ((h.exact_leaf hleaf).mem_iff i).mp (Array.mem_toList_iff.mp hi)
    exact Finset.mem_range.mpr (Array.getElem?_eq_some_iff.mp hp).1
  rw [hlength, ← Multiset.coe_card, ← Multiset.sum_count_eq_card hrange]
  simp only [Multiset.coe_count, hcount]

/-- Every point has a copy. -/
theorem Sound.one_le_copies (h : t.Sound) {i : Nat} (hi : i < t.points.size) : 1 ≤ t.copies i := by
  obtain ⟨leaf, hleaf, hmem⟩ := h.complete.held i hi
  exact List.countP_pos_iff.mpr ⟨leaf, hleaf, decide_eq_true hmem⟩

/-- A leaf that is not empty refers to a point. -/
theorem nonEmptyLeaves_le (t : Tree α) : t.stats.nonEmptyLeaves ≤ t.stats.leafPointRefs := by
  have hcount : t.stats.nonEmptyLeaves =
      (t.occupiedLeaves.map fun leaf => leaf.points.size).length := (List.length_map _).symm
  rw [hcount, ← t.sum_size_occupiedLeaves]
  refine List.length_le_sum_of_one_le _ ?_
  intro size hsize
  obtain ⟨leaf, hleaf, rfl⟩ := List.mem_map.mp hsize
  exact Array.size_pos_iff.mpr (mem_occupiedLeaves_iff.mp hleaf).2

/-- The counting laws of a tree. -/
structure Counted (t : Tree α) : Prop where
  points : t.stats.points = t.points.size
  nodes : t.stats.nodes = 1 + 4 * branchCount t.nodes
  leaves : t.stats.leaves = 1 + 3 * branchCount t.nodes
  /-- The leaves that are counted are the childless nodes of the array. -/
  found : t.leaves.Perm (t.nodes.toList.filter Node.isLeaf)
  deepest : IsGreatest {length | ∃ leaf ∈ t.leaves, leaf.key.code.length = length} t.stats.maxLod
  refs : t.stats.leafPointRefs = ∑ i ∈ Finset.range t.points.size, t.copies i
  occupied : t.stats.nonEmptyLeaves ≤ t.stats.leafPointRefs
  copied : ∀ i < t.points.size, 1 ≤ t.copies i
  /-- No point is missing from the references, so duplicates are what exceeds one for each point. -/
  exceeds : t.stats.points ≤ t.stats.leafPointRefs
  duplicates :
    t.stats.boundaryDuplicates = ∑ i ∈ Finset.range t.points.size, (t.copies i - 1)

/-- **The statistics obey the counting laws of a closed tree**, at every stage. -/
theorem counted_of_reachable {t : Tree α} (h : t.Reachable) : t.Counted := by
  have hsound := Sound.of_reachable h
  obtain ⟨waiting, hgrowth⟩ := hsound.growth
  have hcopied : ∀ i ∈ Finset.range t.points.size, 1 ≤ t.copies i := fun i hi =>
    hsound.one_le_copies (Finset.mem_range.mp hi)
  have hones : ∑ i ∈ Finset.range t.points.size, 1 = t.points.size := by simp
  refine
    { points := rfl
      nodes := hgrowth.size_eq
      leaves := hsound.length_leaves
      found := hsound.leaves_perm
      deepest := hsound.isGreatest_maxLod
      refs := hsound.leafPointRefs_eq_sum
      occupied := t.nonEmptyLeaves_le
      copied := fun i hi => hsound.one_le_copies hi
      exceeds := ?_
      duplicates := ?_ }
  · calc
      t.stats.points = ∑ i ∈ Finset.range t.points.size, 1 := hones.symm
      _ ≤ ∑ i ∈ Finset.range t.points.size, t.copies i := Finset.sum_le_sum hcopied
      _ = t.stats.leafPointRefs := hsound.leafPointRefs_eq_sum.symm
  · calc
      t.stats.boundaryDuplicates = t.stats.leafPointRefs - t.points.size := rfl
      _ = ∑ i ∈ Finset.range t.points.size, t.copies i - ∑ i ∈ Finset.range t.points.size, 1 := by
        rw [hsound.leafPointRefs_eq_sum, hones]
      _ = ∑ i ∈ Finset.range t.points.size, (t.copies i - 1) :=
        (Finset.sum_tsub_distrib _ hcopied).symm

/-- The small tree, subdivided, obeys the counting laws. -/
theorem counted_crossing :
    let t := crossing.afterAll [.subdivide]
    t.Reachable ∧ t.isSubdivided = true ∧ t.Counted := by
  have hreachable := reachable_crossing.afterAll [.subdivide]
  exact ⟨hreachable, isSubdivided_crossing, counted_of_reachable hreachable⟩

end Tree

end QuadCode
