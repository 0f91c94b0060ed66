import QuadCode.Proofs.Tree.Statistics
import QuadCode.Proofs.Tree.Traversal

/-!
# Nodes before their children

The nodes that a node leads to can be listed depth first, each of them in front of its children and
the quadrants in visiting order.  A path comes before every path that it begins, so this is the order
of words over ordered digits again, now for the codes of all nodes and not of the leaves alone.

Main statements:

* `Growth.pairwise_nodesBelow`: the codes are in increasing order;
* `Sound.preorder_perm`: from the root, every node of the array is listed once.
-/

namespace QuadCode

/-- The nodes that a node leads to, itself first, then quadrant by quadrant.  As in `leavesBelow`,
links lead further on. -/
def nodesBelow (nodes : Array Node) (id : Nat) : List Node :=
  match nodes[id]? with
  | none => []
  | some node =>
    match node.children with
    | none => [node]
    | some kids =>
      node :: kids.toList.flatMap fun kid =>
        if _h : id < kid ∧ kid < nodes.size then nodesBelow nodes kid else []
termination_by nodes.size - id

/-- A code comes before those that go on from it. -/
theorem Key.codeBefore_of_longer {a b : Key} {q : Quadrant} (h : a.path ++ [q] <+: b.path) :
    CodeBefore a.code b.code := by
  obtain ⟨below, hb⟩ := h
  rw [CodeBefore, a.toList_code, b.toList_code, ← hb, List.append_assoc, List.map_append]
  simpa using List.Lex.append_left DigitBefore (List.Lex.nil (a := q.digit)
    (l := below.map Quadrant.digit)) (a.path.map Quadrant.digit)

section

variable {α : Type} {points : Array (Point α)} {splitThreshold limit : Nat} {root : Node}
  {nodes : Array Node} {waiting : List Nat}

theorem nodesBelow_leaf {id : Nat} {n : Node} (hn : nodes[id]? = some n)
    (hleaf : n.children = none) : nodesBelow nodes id = [n] := by
  rw [nodesBelow, hn]
  simp only [hleaf]

/-- A node with children leads to itself and then to what its children lead to. -/
theorem Growth.nodesBelow_branch (h : Growth points splitThreshold limit root nodes waiting)
    {id : Nat} {n : Node} {kids : Quadrants Nat} (hn : nodes[id]? = some n)
    (hkids : n.children = some kids) :
    nodesBelow nodes id = n :: kids.toList.flatMap (nodesBelow nodes) := by
  have hlt (q : Quadrant) : id < kids.get q ∧ kids.get q < nodes.size :=
    h.lt_of_linked ⟨n, kids, hn, hkids, rfl⟩
  rw [nodesBelow, hn]
  simp only [hkids]
  congr 1
  apply List.flatMap_congr
  intro kid hkid
  obtain ⟨q, rfl⟩ := Quadrants.mem_toList.mp hkid
  rw [dif_pos (hlt q)]

/-- A node comes first among those that it leads to. -/
theorem Growth.self_mem_nodesBelow (h : Growth points splitThreshold limit root nodes waiting)
    {id : Nat} {n : Node} (hn : nodes[id]? = some n) : n ∈ nodesBelow nodes id := by
  cases hkids : n.children with
  | none =>
      rw [nodesBelow_leaf hn hkids]
      exact List.mem_singleton_self n
  | some kids =>
      rw [h.nodesBelow_branch hn hkids]
      exact List.mem_cons_self

/-- What a node leads to stands in the array, and its path begins with that of the node. -/
theorem Growth.place_of_mem_nodesBelow (h : Growth points splitThreshold limit root nodes waiting)
    {id : Nat} {n : Node} (hn : nodes[id]? = some n) {m : Node} (hm : m ∈ nodesBelow nodes id) :
    (∃ j : Nat, nodes[j]? = some m) ∧ n.key.path <+: m.key.path := by
  refine h.leaf_induction (P := fun id n => ∀ m ∈ nodesBelow nodes id,
    (∃ j : Nat, nodes[j]? = some m) ∧ n.key.path <+: m.key.path) ?_ ?_ hn m hm
  · intro id n hn hleaf m hm
    rw [nodesBelow_leaf hn hleaf] at hm
    rw [List.mem_singleton.mp hm]
    exact ⟨⟨id, hn⟩, List.prefix_refl _⟩
  · intro id n kids hn hkids hchildren m hm
    rw [h.nodesBelow_branch hn hkids] at hm
    rcases List.mem_cons.mp hm with rfl | hm
    · exact ⟨⟨id, hn⟩, List.prefix_refl _⟩
    · obtain ⟨kid, hkid, hm⟩ := List.mem_flatMap.mp hm
      obtain ⟨q, rfl⟩ := Quadrants.mem_toList.mp hkid
      obtain ⟨c, -, hc, hbelow⟩ := hchildren q
      obtain ⟨hplace, hstart⟩ := hbelow m hm
      have hpath : c.key.path = n.key.path ++ [q] := Key.path_child (Node.childIn_parts hc).1
      rw [hpath] at hstart
      exact ⟨hplace, (List.prefix_append _ _).trans hstart⟩

/-- What a child leads to is among what its parent leads to. -/
theorem Growth.nodesBelow_subset_of_linked
    (h : Growth points splitThreshold limit root nodes waiting) {p c : Nat} {q : Quadrant}
    (hlink : Linked nodes p q c) : nodesBelow nodes c ⊆ nodesBelow nodes p := by
  obtain ⟨branch, kids, hbranch, hkids, rfl⟩ := hlink
  intro m hm
  rw [h.nodesBelow_branch hbranch hkids]
  exact List.mem_cons_of_mem _
    (List.mem_flatMap.mpr ⟨_, Quadrants.mem_toList.mpr ⟨q, rfl⟩, hm⟩)

/-- What a node leads to is among what the root leads to. -/
theorem Growth.nodesBelow_subset_root (h : Growth points splitThreshold limit root nodes waiting)
    {id : Nat} (hlt : id < nodes.size) : nodesBelow nodes id ⊆ nodesBelow nodes 0 := by
  induction id using Nat.strongRecOn with
  | ind id ih =>
      rcases Nat.eq_zero_or_pos id with rfl | hpos
      · exact List.Subset.refl _
      · obtain ⟨p, q, hlink⟩ := h.parent hpos hlt
        have hp := (h.lt_of_linked hlink).1
        exact List.Subset.trans (h.nodesBelow_subset_of_linked hlink) (ih p hp (by omega))

/-- **Nodes are listed in the order of their codes.** -/
theorem Growth.pairwise_nodesBelow (h : Growth points splitThreshold limit root nodes waiting)
    {id : Nat} {n : Node} (hn : nodes[id]? = some n) :
    (nodesBelow nodes id).Pairwise fun a b => CodeBefore a.key.code b.key.code := by
  refine h.leaf_induction (P := fun id _ => (nodesBelow nodes id).Pairwise fun a b =>
    CodeBefore a.key.code b.key.code) ?_ ?_ hn
  · intro id n hn hleaf
    rw [nodesBelow_leaf hn hleaf]
    exact List.pairwise_singleton _ _
  · intro id n kids hn hkids hchildren
    rw [h.nodesBelow_branch hn hkids, Quadrants.toList_eq_map_get, List.flatMap_map,
      List.pairwise_cons, List.pairwise_flatMap]
    -- What a quadrant leads to goes on from this node with the step to that quadrant.
    have hstep : ∀ q, ∀ m ∈ nodesBelow nodes (kids.get q), n.key.path ++ [q] <+: m.key.path := by
      intro q m hm
      obtain ⟨c, hc, hchild, -⟩ := hchildren q
      have hstart := (h.place_of_mem_nodesBelow hc hm).2
      have hpath : c.key.path = n.key.path ++ [q] := Key.path_child (Node.childIn_parts hchild).1
      rwa [hpath] at hstart
    refine ⟨?_, ?_, ?_⟩
    · intro m hm
      obtain ⟨q, -, hm⟩ := List.mem_flatMap.mp hm
      exact Key.codeBefore_of_longer (hstep q m hm)
    · intro q hq
      obtain ⟨c, -, -, hordered⟩ := hchildren q
      exact hordered
    · refine Quadrant.pairwise_digit_all.imp fun hdigits => ?_
      intro a ha b hb
      exact Key.codeBefore_of_prefix hdigits (hstep _ a ha) (hstep _ b hb)

end

namespace Tree

variable {α : Type} {t : Tree α}

/-- Every node of the tree, depth first, each in front of its children. -/
def preorder (t : Tree α) : List Node :=
  nodesBelow t.nodes 0

theorem Sound.pairwise_preorder (h : t.Sound) :
    t.preorder.Pairwise fun a b => CodeBefore a.key.code b.key.code := by
  obtain ⟨waiting, hgrowth⟩ := h.growth
  obtain ⟨root, hroot, -⟩ := hgrowth.first
  exact hgrowth.pairwise_nodesBelow hroot

/-- **Every node of the array is listed once.** -/
theorem Sound.preorder_perm (h : t.Sound) : t.preorder.Perm t.nodes.toList := by
  obtain ⟨waiting, hgrowth⟩ := h.growth
  obtain ⟨root, hroot, -⟩ := hgrowth.first
  have hnodup : t.preorder.Nodup := by
    refine h.pairwise_preorder.imp fun {a b} hbefore heq => ?_
    rw [heq] at hbefore
    exact CodeBefore.irrefl _ hbefore
  rw [List.perm_ext_iff_of_nodup hnodup h.nodup_nodes]
  intro n
  constructor
  · intro hn
    obtain ⟨⟨id, hid⟩, -⟩ := hgrowth.place_of_mem_nodesBelow hroot hn
    exact Array.mem_toList_iff.mpr (Array.mem_of_getElem? hid)
  · intro hn
    obtain ⟨id, hid⟩ := Array.mem_iff_getElem?.mp (Array.mem_toList_iff.mp hn)
    exact hgrowth.nodesBelow_subset_root (Array.getElem?_eq_some_iff.mp hid).1
      (hgrowth.self_mem_nodesBelow hid)

end Tree

end QuadCode
