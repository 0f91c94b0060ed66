import QuadCode.Proofs.Key.Code
import QuadCode.Proofs.Tree.Contents
import QuadCode.Proofs.Tree.Shape

/-!
# Leaf codes are a complete prefix code

A link of the node array adds one step to the path of a key, a different one for each quadrant, and
every node but the first is linked to from one parent.  So the path of a key tells the place of its
node.  If the path of a childless node begins the path of another node, going up from the latter
leads to the former, which has no links: the two are the same.  And since nodes with children lie at
the depth limit or above it, a longer path can be followed down to a leaf.

Main statements:

* `Growth.place_unique`: no two nodes have the same key;
* `Growth.eq_of_leaf_prefix`: the path of a leaf begins no other path;
* `Growth.exists_leaf_prefix`: a path below the depth limit begins with the path of a leaf;
* `prefixCode_of_reachable`: the leaf codes of a tree are a complete prefix code.
-/

namespace QuadCode

variable {α : Type}

section

variable {points : Array (Point α)} {splitThreshold limit : Nat} {root : Node} {nodes : Array Node}
  {waiting : List Nat}

/-- There is one child at most in a quadrant of a node. -/
theorem Linked.functional {p c c' : Nat} {q : Quadrant} (h : Linked nodes p q c)
    (h' : Linked nodes p q c') : c = c' := by
  obtain ⟨n, kids, hn, hkids, rfl⟩ := h
  obtain ⟨n', kids', hn', hkids', rfl⟩ := h'
  rw [hn, Option.some.injEq] at hn'
  subst hn'
  rw [hkids, Option.some.injEq] at hkids'
  rw [hkids']

/-- A node is the root, or its path goes one step further than that of a node in front of it. -/
theorem Growth.origin (h : Growth points splitThreshold limit root nodes waiting)
    (hroot : root.key = Key.root) {i : Nat} {n : Node} (hn : nodes[i]? = some n) :
    (i = 0 ∧ n.key.path = []) ∨
      ∃ p q m, p < i ∧ nodes[p]? = some m ∧ Linked nodes p q i ∧
        n.key.path = m.key.path ++ [q] := by
  by_cases hzero : i = 0
  · obtain ⟨r, hr, hbare⟩ := h.first
    rw [hzero, hr, Option.some.injEq] at hn
    have hkey : n.key = Key.root := by
      rw [← hn, ← hroot, ← hbare]
      rfl
    exact Or.inl ⟨hzero, by rw [hkey]; rfl⟩
  · obtain ⟨p, q, hlink⟩ :=
      h.parent (Nat.pos_of_ne_zero hzero) (Array.getElem?_eq_some_iff.mp hn).1
    have hlt := (h.lt_of_linked hlink).1
    obtain ⟨m, kids, hm, hrest⟩ := hlink
    have hlink : Linked nodes p q i := ⟨m, kids, hm, hrest⟩
    have hchild := h.childIn_of_linked hlink hm hn
    exact Or.inr ⟨p, q, m, hlt, hm, hlink, Key.path_child (Node.childIn_parts hchild).1⟩

/-- A node is the root, or its cell is a quadrant of the cell of a node in front of it. -/
theorem Growth.cell_origin (h : Growth points splitThreshold limit root nodes waiting)
    (hroot : root.key = Key.root) {i : Nat} {n : Node} (hn : nodes[i]? = some n) :
    (i = 0 ∧ n.key.path = []) ∨ ∃ p q m, p < i ∧ nodes[p]? = some m ∧ Linked nodes p q i ∧
      n.key.path = m.key.path ++ [q] ∧ n.key.lod = m.key.lod + 1 ∧ n.rect = m.rect.quadrant q := by
  refine (h.origin hroot hn).imp_right ?_
  rintro ⟨p, q, m, hlt, hm, hlink, hstep⟩
  have hchild := h.childIn_of_linked hlink hm hn
  exact ⟨p, q, m, hlt, hm, hlink, hstep, Key.lod_of_child (Node.childIn_parts hchild).1,
    (Node.childIn_parts hchild).2.1⟩

/-- **The path of a node tells its place.** -/
theorem Growth.place_unique (h : Growth points splitThreshold limit root nodes waiting)
    (hroot : root.key = Key.root) {i j : Nat} {n m : Node} (hn : nodes[i]? = some n)
    (hm : nodes[j]? = some m) (hpath : n.key.path = m.key.path) : i = j := by
  -- Both paths lose their last step on the way to the parents.
  induction i using Nat.strongRecOn generalizing j n m with
  | ind i ih =>
      rcases h.origin hroot hn with ⟨hi, hnil⟩ | ⟨p, q, parent, hlt, hparent, hlink, hstep⟩ <;>
        rcases h.origin hroot hm with ⟨hj, hnil'⟩ | ⟨p', q', parent', -, hparent', hlink', hstep'⟩
      · rw [hi, hj]
      · rw [hnil, hstep'] at hpath
        simp at hpath
      · rw [hstep, hnil'] at hpath
        simp at hpath
      · rw [hstep, hstep', List.append_singleton_inj] at hpath
        obtain ⟨hpath, rfl⟩ := hpath
        have hplace := ih p hlt hparent hparent' hpath
        subst hplace
        exact hlink.functional hlink'

/-- **The path of a leaf begins no other path.** -/
theorem Growth.eq_of_leaf_prefix (h : Growth points splitThreshold limit root nodes waiting)
    (hroot : root.key = Key.root) {i j : Nat} {n m : Node} (hn : nodes[i]? = some n)
    (hleaf : n.children = none) (hm : nodes[j]? = some m) (hstart : n.key.path <+: m.key.path) :
    i = j := by
  -- Unless the paths are the same, the leaf's path begins that of the other node's parent too.
  induction j using Nat.strongRecOn generalizing m with
  | ind j ih =>
      rcases h.origin hroot hm with ⟨-, hnil⟩ | ⟨p, q, parent, hlt, hparent, hlink, hstep⟩
      · have hpath : n.key.path = m.key.path := by
          rw [hnil] at hstart ⊢
          exact List.prefix_nil.mp hstart
        exact h.place_unique hroot hn hm hpath
      · rw [hstep, List.prefix_concat_iff] at hstart
        rcases hstart with hpath | hstart
        · exact h.place_unique hroot hn hm (hpath.trans hstep.symm)
        · have hplace := ih p hlt hparent hstart
          subst hplace
          obtain ⟨kids, hkids, -⟩ := hlink.children hn
          rw [hleaf] at hkids
          cases hkids

/-- The leaves that a node leads to have no children, and their paths begin with that of the
node. -/
theorem Growth.leaf_of_mem_leavesBelow
    (h : Growth points splitThreshold limit root nodes waiting) {id : Nat} {n : Node}
    (hn : nodes[id]? = some n) {j : Nat} (hj : j ∈ leavesBelow nodes id) :
    ∃ leaf, nodes[j]? = some leaf ∧ leaf.children = none ∧ n.key.path <+: leaf.key.path := by
  refine h.leaf_induction (P := fun id n => ∀ j ∈ leavesBelow nodes id, ∃ leaf,
    nodes[j]? = some leaf ∧ leaf.children = none ∧ n.key.path <+: leaf.key.path) ?_ ?_ hn j hj
  · intro id n hn hleaf j hj
    rw [leavesBelow_leaf hn hleaf] at hj
    rw [List.mem_singleton.mp hj]
    exact ⟨n, hn, hleaf, List.prefix_refl _⟩
  · intro id n kids hn hkids hchildren j hj
    rw [h.leavesBelow_branch hn hkids] at hj
    obtain ⟨q, -, hj⟩ := List.mem_flatMap.mp hj
    obtain ⟨c, -, hc, hbelow⟩ := hchildren q
    obtain ⟨leaf, hleaf, hchildless, hstart⟩ := hbelow j hj
    have hpath : c.key.path = n.key.path ++ [q] := Key.path_child (Node.childIn_parts hc).1
    rw [hpath] at hstart
    exact ⟨leaf, hleaf, hchildless, (List.prefix_append _ _).trans hstart⟩

/-- No leaf is listed twice. -/
theorem Growth.nodup_leavesBelow (h : Growth points splitThreshold limit root nodes waiting)
    {id : Nat} {n : Node} (hn : nodes[id]? = some n) : (leavesBelow nodes id).Nodup := by
  refine h.leaf_induction (P := fun id _ => (leavesBelow nodes id).Nodup) ?_ ?_ hn
  · intro id n hn hleaf
    rw [leavesBelow_leaf hn hleaf]
    exact List.nodup_singleton id
  · intro id n kids hn hkids hchildren
    rw [h.leavesBelow_branch hn hkids, List.nodup_flatMap]
    refine ⟨?_, ?_⟩
    · intro q hq
      obtain ⟨c, -, -, hnodup⟩ := hchildren q
      exact hnodup
    · have hall : Quadrant.all.Nodup := by decide
      refine hall.imp ?_
      intro q q' hne j hj hj'
      -- The path of a leaf in both quadrants would begin with two different steps.
      obtain ⟨c, hc, hchild, -⟩ := hchildren q
      obtain ⟨c', hc', hchild', -⟩ := hchildren q'
      obtain ⟨leaf, hleaf, -, hstart⟩ := h.leaf_of_mem_leavesBelow hc hj
      obtain ⟨leaf', hleaf', -, hstart'⟩ := h.leaf_of_mem_leavesBelow hc' hj'
      rw [hleaf, Option.some.injEq] at hleaf'
      subst hleaf'
      have hpath : c.key.path = n.key.path ++ [q] := Key.path_child (Node.childIn_parts hchild).1
      have hpath' : c'.key.path = n.key.path ++ [q'] :=
        Key.path_child (Node.childIn_parts hchild').1
      rw [hpath] at hstart
      rw [hpath'] at hstart'
      have hsame := List.prefix_of_prefix_length_le hstart hstart' (by simp)
      have heq := hsame.eq_of_length (by simp)
      exact hne (List.append_singleton_inj.mp heq).2

/-- The leaves of a child stand next to each other among those of its parent. -/
theorem Growth.leavesBelow_infix_of_linked
    (h : Growth points splitThreshold limit root nodes waiting) {p c : Nat} {q : Quadrant}
    (hlink : Linked nodes p q c) : leavesBelow nodes c <:+: leavesBelow nodes p := by
  obtain ⟨branch, kids, hbranch, hkids, rfl⟩ := hlink
  rw [h.leavesBelow_branch hbranch hkids, List.flatMap_def]
  exact List.infix_of_mem_flatten (List.mem_map.mpr ⟨q, Quadrant.mem_all q, rfl⟩)

/-- The leaves of a node stand next to each other among all leaves. -/
theorem Growth.leavesBelow_infix_root (h : Growth points splitThreshold limit root nodes waiting)
    (hroot : root.key = Key.root) {id : Nat} {n : Node} (hn : nodes[id]? = some n) :
    leavesBelow nodes id <:+: leavesBelow nodes 0 := by
  induction id using Nat.strongRecOn generalizing n with
  | ind id ih =>
      rcases h.origin hroot hn with ⟨rfl, -⟩ | ⟨p, q, parent, hlt, hparent, hlink, -⟩
      · exact List.infix_rfl
      · exact (h.leavesBelow_infix_of_linked hlink).trans (ih p hlt hparent)

/-- A path that is not the path of a node with children begins with the path of a leaf. -/
theorem Growth.exists_leaf_prefix_of_ne (h : Growth points splitThreshold limit root nodes waiting)
    {path : List Quadrant}
    (hne : ∀ {id : Nat} {n : Node} {kids : Quadrants Nat}, nodes[id]? = some n →
      n.children = some kids → n.key.path ≠ path) {id : Nat} {n : Node}
    (hn : nodes[id]? = some n) (hstart : n.key.path <+: path) :
    ∃ j ∈ leavesBelow nodes id, ∃ leaf, nodes[j]? = some leaf ∧ leaf.key.path <+: path := by
  refine h.leaf_induction (P := fun id n => n.key.path <+: path → ∃ j ∈ leavesBelow nodes id,
    ∃ leaf, nodes[j]? = some leaf ∧ leaf.key.path <+: path) ?_ ?_ hn hstart
  · intro id n hn hleaf hstart
    rw [leavesBelow_leaf hn hleaf]
    exact ⟨id, List.mem_singleton.mpr rfl, n, hn, hstart⟩
  · intro id n kids hn hkids hchildren hstart
    obtain ⟨rest, hrest⟩ := hstart
    cases rest with
    | nil => exact absurd (by rwa [List.append_nil] at hrest) (hne hn hkids)
    | cons q rest =>
        obtain ⟨c, -, hc, hbelow⟩ := hchildren q
        have hpath : c.key.path = n.key.path ++ [q] := Key.path_child (Node.childIn_parts hc).1
        obtain ⟨j, hj, hleaf⟩ := hbelow ⟨rest, by rw [hpath, ← hrest, List.append_assoc]; rfl⟩
        rw [h.leavesBelow_branch hn hkids]
        exact ⟨j, List.mem_flatMap.mpr ⟨q, Quadrant.mem_all q, hj⟩, hleaf⟩

/-- **A path below the depth limit begins with the path of a leaf.** -/
theorem Growth.exists_leaf_prefix (h : Growth points splitThreshold limit root nodes waiting)
    {path : List Quadrant} (hlong : limit < path.length) {id : Nat} {n : Node}
    (hn : nodes[id]? = some n) (hstart : n.key.path <+: path) :
    ∃ j ∈ leavesBelow nodes id, ∃ leaf, nodes[j]? = some leaf ∧ leaf.key.path <+: path := by
  refine h.exists_leaf_prefix_of_ne ?_ hn hstart
  intro id n kids hn hkids hpath
  have hlod := (h.divided hn hkids).2
  rw [← hpath, Key.length_path] at hlong
  omega

end

namespace Tree

/-- The nodes of a tree have different keys, and its leaf codes are a complete prefix code: none of
them begins another, and each string of digits that is longer than the depth limit begins with
exactly one of them. -/
structure PrefixCode (t : Tree α) : Prop where
  keys : ∀ {i j : Nat} {n m : Node}, t.node? i = some n → t.node? j = some m → n.key = m.key → i = j
  leaves : ∀ leaf, leaf ∈ t.leaves ↔ leaf.isLeaf = true ∧ ∃ id, t.node? id = some leaf
  free : ∀ {i j : Nat} {leaf leaf' : Node}, t.leaves[i]? = some leaf → t.leaves[j]? = some leaf' →
    leaf.key.code.toList <+: leaf'.key.code.toList → i = j
  complete : ∀ w : String, (∀ c ∈ w.toList, c ∈ ['0', '1', '2', '3']) →
    t.settings.lodThreshold.toNat + 1 ≤ w.length →
      ∃! i : Nat, ∃ leaf, t.leaves[i]? = some leaf ∧ leaf.key.code.toList <+: w.toList

/-- A leaf of the tree has no children, and it is a node of the tree. -/
theorem Sound.mem_leaves_iff {t : Tree α} (h : t.Sound) {leaf : Node} :
    leaf ∈ t.leaves ↔ leaf.isLeaf = true ∧ ∃ id, t.node? id = some leaf := by
  obtain ⟨waiting, hgrowth⟩ := h.growth
  obtain ⟨root, hroot, -⟩ := hgrowth.first
  constructor
  · intro hmem
    obtain ⟨j, hj, hget⟩ := List.mem_filterMap.mp hmem
    obtain ⟨leaf', hleaf', hchildless, -⟩ := hgrowth.leaf_of_mem_leavesBelow hroot hj
    rw [hget, Option.some.injEq] at hleaf'
    subst hleaf'
    exact ⟨Node.isLeaf_iff.mpr hchildless, j, hget⟩
  · intro hleaf
    obtain ⟨hchildless, j, hget⟩ := hleaf
    have hself : j ∈ leavesBelow t.nodes j := by
      rw [leavesBelow_leaf hget (Node.isLeaf_iff.mp hchildless)]
      exact List.mem_singleton.mpr rfl
    exact List.mem_filterMap.mpr ⟨j, (hgrowth.leavesBelow_infix_root rfl hget).subset hself, hget⟩

/-- Of two leaves at different places of the list, neither path begins the other. -/
theorem Sound.pairwise_leaves {t : Tree α} (h : t.Sound) :
    t.leaves.Pairwise fun a b => ¬ a.key.path <+: b.key.path ∧ ¬ b.key.path <+: a.key.path := by
  obtain ⟨waiting, hgrowth⟩ := h.growth
  obtain ⟨root, hroot, -⟩ := hgrowth.first
  rw [leaves, leavesFrom, List.pairwise_filterMap]
  refine (hgrowth.nodup_leavesBelow hroot).imp_of_mem ?_
  intro i j hi hj hne a ha b hb
  obtain ⟨a', ha', hleaf, -⟩ := hgrowth.leaf_of_mem_leavesBelow hroot hi
  obtain ⟨b', hb', hleaf', -⟩ := hgrowth.leaf_of_mem_leavesBelow hroot hj
  rw [ha, Option.some.injEq] at ha'
  rw [hb, Option.some.injEq] at hb'
  subst ha' hb'
  exact ⟨fun hstart => hne (hgrowth.eq_of_leaf_prefix rfl ha hleaf hb hstart),
    fun hstart => hne (hgrowth.eq_of_leaf_prefix rfl hb hleaf' ha hstart).symm⟩

/-- A leaf whose path begins that of a leaf stands at the same place of the list. -/
theorem Sound.leaf_free {t : Tree α} (h : t.Sound) {i j : Nat} {leaf leaf' : Node}
    (hi : t.leaves[i]? = some leaf) (hj : t.leaves[j]? = some leaf')
    (hstart : leaf.key.path <+: leaf'.key.path) : i = j := by
  obtain ⟨hlt, hget⟩ := List.getElem?_eq_some_iff.mp hi
  obtain ⟨hlt', hget'⟩ := List.getElem?_eq_some_iff.mp hj
  have hpairs := List.pairwise_iff_getElem.mp h.pairwise_leaves
  rcases Nat.lt_trichotomy i j with hij | hij | hij
  · have hfree := (hpairs i j hlt hlt' hij).1
    rw [hget, hget'] at hfree
    exact absurd hstart hfree
  · exact hij
  · have hfree := (hpairs j i hlt' hlt hij).2
    rw [hget, hget'] at hfree
    exact absurd hstart hfree

/-- Some leaf's path begins a path that is longer than the depth limit. -/
theorem Sound.exists_leaf_prefix {t : Tree α} (h : t.Sound) {path : List Quadrant}
    (hlong : t.settings.lodThreshold.toNat < path.length) :
    ∃ leaf ∈ t.leaves, leaf.key.path <+: path := by
  obtain ⟨waiting, hgrowth⟩ := h.growth
  obtain ⟨root, hroot, hbare⟩ := hgrowth.first
  have hkey : root.key = Key.root := congrArg Node.key hbare
  have hstart : root.key.path <+: path := by
    rw [hkey]
    exact List.nil_prefix
  obtain ⟨j, hj, leaf, hleaf, hleafStart⟩ := hgrowth.exists_leaf_prefix hlong hroot hstart
  exact ⟨leaf, List.mem_filterMap.mpr ⟨j, hj, hleaf⟩, hleafStart⟩

/-- **Leaf codes are a complete prefix code.**  No two nodes of a tree have the same key, no leaf's
code begins that of another leaf, and every string of digits that is longer than the depth limit
begins with the code of exactly one leaf. -/
theorem prefixCode_of_reachable {t : Tree α} (h : t.Reachable) : t.PrefixCode := by
  have hsound := Sound.of_reachable h
  have hfree : ∀ {i j : Nat} {leaf leaf' : Node}, t.leaves[i]? = some leaf →
      t.leaves[j]? = some leaf' → leaf.key.code.toList <+: leaf'.key.code.toList → i = j := by
    intro i j leaf leaf' hi hj hstart
    rw [leaf'.key.toList_code, Key.code_prefix_iff] at hstart
    exact hsound.leaf_free hi hj hstart
  refine
    { keys := ?_
      leaves := fun leaf => hsound.mem_leaves_iff
      free := hfree
      complete := ?_ }
  · intro i j n m hn hm hkey
    obtain ⟨waiting, hgrowth⟩ := hsound.growth
    exact hgrowth.place_unique rfl hn hm (congrArg Key.path hkey)
  · intro w hdigits hlong
    have hw : (w.toList.filterMap Quadrant.ofDigit?).map Quadrant.digit = w.toList :=
      map_digit_filterMap hdigits
    have hlength : (w.toList.filterMap Quadrant.ofDigit?).length = w.length := by
      rw [← String.length_toList, ← hw, List.length_map, hw]
    obtain ⟨leaf, hmem, hstart⟩ := hsound.exists_leaf_prefix (by rw [hlength]; exact hlong)
    obtain ⟨i, hi⟩ := List.mem_iff_getElem?.mp hmem
    have hbegins : leaf.key.code.toList <+: w.toList := by
      rw [← hw]
      exact Key.code_prefix_iff.mpr hstart
    refine ⟨i, ⟨leaf, hi, hbegins⟩, ?_⟩
    intro j hj
    obtain ⟨leaf', hj, hbegins'⟩ := hj
    -- Of two beginnings of one string, one begins the other.
    rcases List.prefix_or_prefix_of_prefix hbegins hbegins' with hfirst | hsecond
    · exact (hfree hi hj hfirst).symm
    · exact hfree hj hi hsecond

/-- The leaf codes of the small tree, subdivided. -/
theorem prefixCode_crossing :
    let t := crossing.afterAll [.subdivide]
    t.Reachable ∧ t.isSubdivided = true ∧ t.PrefixCode := by
  have hreachable := reachable_crossing.afterAll [.subdivide]
  exact ⟨hreachable, isSubdivided_crossing, prefixCode_of_reachable hreachable⟩

end Tree

end QuadCode
