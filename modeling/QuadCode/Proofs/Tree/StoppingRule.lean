import QuadCode.Proofs.Tree.Lifecycle
import QuadCode.Proofs.Tree.Width

/-!
# Where splitting stops

A waiting node is split if it holds more points than the split threshold and does not lie below the
depth limit, and it is left alone otherwise.  Splits touch only the node on top of the stack, so a
node that has been looked at is settled for good: at any time, the nodes of which the rule does not
hold yet are among those that wait.  In a subdivided tree none waits.

Main statements:

* `Growth.isSome_children_iff`: the rule holds of every node that does not wait;
* `Growth.nodes_of_few`: a region that holds few points stays undivided;
* `settled_of_reachable`: the rule holds of every node of a subdivided tree, and what follows from
  it for the depth of its leaves.
-/

namespace QuadCode

variable {α : Type}

section

variable {points : Array (Point α)} {splitThreshold limit : Nat} {root : Node} {nodes : Array Node}
  {waiting : List Nat}

/-- **A node that does not wait is settled.**  It has children if and only if it holds more points
than the split threshold and does not lie below the depth limit. -/
theorem Growth.isSome_children_iff (h : Growth points splitThreshold limit root nodes waiting)
    {id : Nat} {n : Node} (hn : nodes[id]? = some n) (hid : id ∉ waiting) :
    n.children.isSome = true ↔ splitThreshold < n.points.size ∧ n.key.lod ≤ limit := by
  cases hkids : n.children with
  | some kids => exact iff_of_true rfl (h.divided hn hkids)
  | none =>
      refine iff_of_false Bool.false_ne_true fun hsplit => ?_
      rcases h.stopped hn hkids hid with hfew | hdeep
      · exact absurd hsplit.1 (Nat.not_lt_of_le hfew)
      · exact absurd hsplit.2 (Nat.not_le_of_lt hdeep)

/-- A region that holds few points stays undivided. -/
theorem Growth.nodes_of_few (h : Growth points splitThreshold limit root nodes waiting)
    (hfew : root.points.size ≤ splitThreshold) : nodes = #[root] := by
  obtain ⟨r, hr, hbare⟩ := h.first
  have hchildless : r.children = none := by
    refine Option.eq_none_iff_forall_ne_some.mpr fun kids hkids => ?_
    have hmany : splitThreshold < r.bare.points.size := (h.divided hr hkids).1
    rw [hbare] at hmany
    omega
  have hpos := (Array.getElem?_eq_some_iff.mp hr).1
  have hsize : nodes.size = 1 := by
    by_contra hmore
    -- The node at the second place would be a child of the root.
    obtain ⟨p, q, hlink⟩ := h.parent Nat.one_pos (show 1 < nodes.size by omega)
    obtain rfl : p = 0 := Nat.lt_one_iff.mp (h.lt_of_linked hlink).1
    obtain ⟨kids, hkids, -⟩ := hlink.children hr
    rw [hchildless] at hkids
    cases hkids
  obtain ⟨only, rfl⟩ := Array.size_eq_one_iff.mp hsize
  rw [← hbare, Node.bare_of_childless hchildless, ← Option.some.inj hr]
  rfl

end

namespace Tree

/-- Where splitting has stopped in a subdivided tree. -/
structure Settled (t : Tree α) : Prop where
  rule : ∀ {id : Nat} {n : Node}, t.node? id = some n →
    (n.children.isSome = true ↔
      t.settings.splitThreshold.toNat < n.points.size ∧
        n.key.lod ≤ t.settings.lodThreshold.toNat)
  depth : ∀ {id : Nat} {n : Node}, t.node? id = some n →
    n.key.lod ≤ t.settings.lodThreshold.toNat + 1
  few : t.points.size ≤ t.settings.splitThreshold.toNat → t.nodes = #[t.undivided]
  /-- Without a threshold, the leaves that hold a point are as deep as leaves can be. -/
  deepest : t.settings.splitThreshold = 0 → ∀ leaf ∈ t.leaves, leaf.points.isEmpty = false →
    leaf.key.lod = t.settings.lodThreshold.toNat + 1

/-- **The stopping rule.**  In a subdivided tree a node has children if and only if it holds more
points than the split threshold and does not lie below the depth limit. -/
theorem settled_of_reachable {t : Tree α} (h : t.Reachable) (hdone : t.isSubdivided = true) :
    t.Settled := by
  have hsound := Sound.of_reachable h
  have hgrowth := hsound.growth_of_isSubdivided hdone
  have hrule : ∀ {id : Nat} {n : Node}, t.node? id = some n →
      (n.children.isSome = true ↔ t.settings.splitThreshold.toNat < n.points.size ∧
        n.key.lod ≤ t.settings.lodThreshold.toNat) := fun hn =>
    hgrowth.isSome_children_iff hn List.not_mem_nil
  refine { rule := hrule, depth := hsound.lod_le, few := ?_, deepest := ?_ }
  · intro hfew
    apply hgrowth.nodes_of_few
    rw [undivided, Node.leaf, Array.size_range]
    exact hfew
  · intro hzero leaf hleaf hfull
    obtain ⟨hchildless, id, hid⟩ := hsound.mem_leaves_iff.mp hleaf
    have hdepth := hsound.lod_le hid
    by_contra hshallow
    have hmany : t.settings.splitThreshold.toNat < leaf.points.size := by
      rw [hzero]
      exact Array.size_pos_iff.mpr (Array.isEmpty_eq_false_iff.mp hfull)
    have hbranch : leaf.children.isSome = true := (hrule hid).mpr ⟨hmany, by omega⟩
    rw [Node.isLeaf, Option.isNone_iff_eq_none] at hchildless
    rw [hchildless] at hbranch
    cases hbranch

/-- The stopping rule holds of the small tree, subdivided. -/
theorem settled_crossing :
    let t := crossing.afterAll [.subdivide]
    t.Reachable ∧ t.isSubdivided = true ∧ t.Settled := by
  have hreachable := reachable_crossing.afterAll [.subdivide]
  exact ⟨hreachable, isSubdivided_crossing, settled_of_reachable hreachable isSubdivided_crossing⟩

end Tree

end QuadCode
