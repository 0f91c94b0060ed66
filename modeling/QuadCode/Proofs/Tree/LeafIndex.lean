import QuadCode.Proofs.Tree.PrefixCode

/-!
# The index of the leaves

The index is filled leaf by leaf, and a later entry would replace an earlier one with the same code.
Since no leaf's code begins that of another, no two leaves have the same code, and each leaf that
holds a point keeps its entry.  So the entries are the occupied leaves, one for one, and they can be
counted.

Main statements:

* `Sound.getElem?_index_iff`: the entries are the point lists of the occupied leaves;
* `Sound.toList_index_perm`: there is one entry for each occupied leaf;
* `Sound.nodePoints_eq_filter`: the points of a node are those in its rectangle, in the order in
  which they were added;
* `Sound.exists_entry`: no point of a subdivided tree is missing in the index;
* `indexed_of_reachable`: the index of every tree, before it is subdivided and after.
-/

namespace QuadCode

variable {α : Type}

/-- Reading a list at all its places gives the list. -/
theorem filterMap_getElem?_range {β : Type} (xs : List β) :
    (List.range xs.length).filterMap (xs[·]?) = xs := by
  induction xs with
  | nil => rfl
  | cons x xs ih =>
      rw [List.length_cons, List.range_succ_eq_map, List.filterMap_cons, List.filterMap_map]
      exact congrArg (x :: ·) ih

namespace Tree

/-- An entry stays as long as the leaves that are put in have other codes. -/
theorem getElem?_foldl_insert_of_ne {leaves : List Node} {code : String} (found : LeafIndex)
    (h : ∀ leaf ∈ leaves, leaf.key.code ≠ code) :
    (leaves.foldl (fun found leaf => found.insert leaf.key.code leaf.points) found)[code]? =
      found[code]? := by
  induction leaves generalizing found with
  | nil => rfl
  | cons leaf rest ih =>
      rw [List.foldl_cons, ih _ fun leaf hleaf => h leaf (List.mem_cons_of_mem _ hleaf),
        Std.ExtTreeMap.getElem?_insert, if_neg]
      intro heq
      exact h leaf List.mem_cons_self (Std.LawfulEqCmp.eq_of_compare heq)

/-- Leaves with different codes all keep their entries. -/
theorem getElem?_foldl_insert_of_mem {leaves : List Node} (found : LeafIndex)
    (h : leaves.Pairwise fun a b => a.key.code ≠ b.key.code) {leaf : Node} (hleaf : leaf ∈ leaves) :
    (leaves.foldl (fun found leaf => found.insert leaf.key.code leaf.points) found)[leaf.key.code]? =
      some leaf.points := by
  induction leaves generalizing found with
  | nil => cases hleaf
  | cons first rest ih =>
      obtain ⟨hfirst, hrest⟩ := List.pairwise_cons.mp h
      rcases List.mem_cons.mp hleaf with rfl | hleaf
      · rw [List.foldl_cons,
          getElem?_foldl_insert_of_ne _ fun other hother => (hfirst other hother).symm,
          Std.ExtTreeMap.getElem?_insert_self]
      · exact ih _ hrest hleaf

variable {t : Tree α}

theorem index_of_fresh (hfresh : t.isSubdivided = false) : t.index = ∅ := by
  rw [index, hfresh]
  rfl

theorem mem_occupiedLeaves_iff {leaf : Node} :
    leaf ∈ t.occupiedLeaves ↔ leaf ∈ t.leaves ∧ leaf.points ≠ #[] := by
  rw [occupiedLeaves, List.mem_filter]
  simp

/-- Leaves at different places of the list have different codes. -/
theorem Sound.pairwise_code (h : t.Sound) :
    t.leaves.Pairwise fun a b => a.key.code ≠ b.key.code := by
  refine h.pairwise_leaves.imp ?_
  rintro a b ⟨hfree, -⟩ heq
  refine hfree (Key.code_prefix_iff.mp ?_)
  rw [heq, Key.toList_code]

/-- **The entries of the index are the point lists of the occupied leaves**, by their codes. -/
theorem Sound.getElem?_index_iff (h : t.Sound) (hdone : t.isSubdivided = true) {code : String}
    {held : Array Nat} :
    t.index[code]? = some held ↔
      ∃ leaf ∈ t.occupiedLeaves, leaf.key.code = code ∧ leaf.points = held := by
  have hcodes : t.occupiedLeaves.Pairwise fun a b => a.key.code ≠ b.key.code :=
    h.pairwise_code.filter _
  rw [index, if_pos hdone]
  constructor
  · intro hheld
    exact (mem_of_getElem?_foldl_insert hheld).resolve_left (by simp)
  · rintro ⟨leaf, hleaf, rfl, rfl⟩
    exact getElem?_foldl_insert_of_mem ∅ hcodes hleaf

/-- **There is one entry for each occupied leaf.** -/
theorem Sound.toList_index_perm (h : t.Sound) (hdone : t.isSubdivided = true) :
    t.index.toList.Perm (t.occupiedLeaves.map fun leaf => (leaf.key.code, leaf.points)) := by
  have hindex : t.index.toList.Nodup := by
    refine Std.ExtTreeMap.distinct_keys_toList.imp ?_
    rintro a b hne rfl
    exact hne Std.ReflCmp.compare_self
  have hleaves : (t.occupiedLeaves.map fun leaf => (leaf.key.code, leaf.points)).Nodup := by
    rw [List.Nodup, List.pairwise_map]
    exact (h.pairwise_code.filter _).imp fun hne heq => hne (congrArg Prod.fst heq)
  rw [List.perm_ext_iff_of_nodup hindex hleaves]
  rintro ⟨code, held⟩
  rw [Std.ExtTreeMap.mem_toList_iff_getElem?_eq_some, h.getElem?_index_iff hdone, List.mem_map]
  simp only [Prod.mk.injEq]

/-- The sizes of leaves add up to the same with the empty leaves and without them. -/
theorem sum_size_occupiedLeaves (t : Tree α) :
    (t.occupiedLeaves.map fun leaf => leaf.points.size).sum = t.stats.leafPointRefs := by
  have hrefs : t.stats.leafPointRefs = (t.leaves.map fun leaf => leaf.points.size).sum := by
    rw [List.sum_eq_foldl, List.foldl_map]
    rfl
  rw [hrefs, occupiedLeaves]
  induction t.leaves with
  | nil => rfl
  | cons leaf rest ih =>
      by_cases hempty : leaf.points.size = 0
      · rw [List.filter_cons_of_neg (by simpa using hempty), ih, List.map_cons, List.sum_cons,
          hempty, Nat.zero_add]
      · rw [List.filter_cons_of_pos (by simpa using hempty), List.map_cons, List.sum_cons, ih,
          List.map_cons, List.sum_cons]

/-- **The points of a node are those in its rectangle**, in the order in which they were added. -/
theorem Sound.nodePoints_eq_filter (h : t.Sound) {id : Nat} {n : Node} (hn : t.node? id = some n) :
    t.nodePoints n = t.points.filter fun p => n.rect.contains p.toLocation := by
  have hexact := h.complete.exact hn
  have hpositions : n.points.toList = (List.range t.points.size).filter fun i =>
      t.points[i]?.any fun p => n.rect.contains p.toLocation := by
    refine hexact.increasing.eq_of_mem_iff (List.pairwise_lt_range.filter _) fun i => ?_
    rw [Array.mem_toList_iff, hexact.mem_iff, List.mem_filter, List.mem_range, Option.any_eq_true]
    exact ⟨fun ⟨p, hp⟩ => ⟨(Array.getElem?_eq_some_iff.mp hp.1).1, p, hp⟩, fun hi => hi.2⟩
  have hall : t.points.toList = (List.range t.points.size).filterMap (t.points[·]?) := by
    have hlist := filterMap_getElem?_range t.points.toList
    simp only [Array.length_toList, Array.getElem?_toList] at hlist
    exact hlist.symm
  apply Array.ext'
  rw [nodePoints, pointsAt, Array.toList_filterMap, hpositions, List.filterMap_filter,
    Array.toList_filter, hall, List.filter_filterMap]
  refine List.filterMap_congr fun i _ => ?_
  cases t.points[i]? with
  | none => rfl
  | some p => rfl

/-- A string finds nothing if no occupied leaf has it as its code. -/
theorem leafPoints_of_ne {code : String} (hne : ∀ leaf ∈ t.occupiedLeaves, leaf.key.code ≠ code) :
    t.leafPoints code = #[] := by
  have hnone : t.index[code]? = none := by
    by_cases hdone : t.isSubdivided = true
    · rw [index, if_pos hdone, getElem?_foldl_insert_of_ne _ hne, Std.ExtTreeMap.getElem?_empty]
    · rw [index, if_neg hdone, Std.ExtTreeMap.getElem?_empty]
  rw [leafPoints, hnone]
  rfl

/-- Looking up the code of a leaf gives the points of the leaf, also if there are none. -/
theorem Sound.leafPoints_code (h : t.Sound) (hdone : t.isSubdivided = true) {leaf : Node}
    (hleaf : leaf ∈ t.leaves) : t.leafPoints leaf.key.code = t.nodePoints leaf := by
  by_cases hempty : leaf.points = #[]
  · have hother : ∀ other ∈ t.occupiedLeaves, other.key.code ≠ leaf.key.code := by
      intro other hother heq
      obtain ⟨hmem, hoccupied⟩ := mem_occupiedLeaves_iff.mp hother
      have hcodes : (t.leaves.map fun leaf => leaf.key.code).Nodup :=
        List.pairwise_map.mpr h.pairwise_code
      rw [List.inj_on_of_nodup_map hcodes hmem hleaf heq] at hoccupied
      exact hoccupied hempty
    rw [leafPoints_of_ne hother, nodePoints, hempty]
    rfl
  · have hentry : t.index[leaf.key.code]? = some leaf.points :=
      (h.getElem?_index_iff hdone).mpr
        ⟨leaf, mem_occupiedLeaves_iff.mpr ⟨hleaf, hempty⟩, rfl, rfl⟩
    rw [leafPoints, hentry]
    rfl

/-- Every point of a subdivided tree is found in the index. -/
theorem Sound.exists_entry (h : t.Sound) (hdone : t.isSubdivided = true) {i : Nat}
    (hi : i < t.points.size) :
    ∃ (code : String) (held : Array Nat), t.index[code]? = some held ∧ i ∈ held := by
  obtain ⟨leaf, hleaf, hheld⟩ := h.complete.held i hi
  have hoccupied : leaf ∈ t.occupiedLeaves :=
    mem_occupiedLeaves_iff.mpr ⟨hleaf, Array.ne_empty_of_mem hheld⟩
  exact ⟨leaf.key.code, leaf.points,
    (h.getElem?_index_iff hdone).mpr ⟨leaf, hoccupied, rfl, rfl⟩, hheld⟩

/-- The index lists the leaves that hold points, where the leaves are the nodes without children.
It is empty before subdivision.  After it there is an entry for each occupied leaf, the positions of
its points, and looking up the leaf's code gives the points in its rectangle in the order in which
they were added; any other string finds nothing.  No point of the tree is missing in the entries. -/
structure Indexed (t : Tree α) : Prop where
  leaf_iff : ∀ leaf, leaf ∈ t.leaves ↔ leaf.isLeaf = true ∧ ∃ id, t.node? id = some leaf
  fresh : t.isSubdivided = false → t.index = ∅
  entry : t.isSubdivided = true → ∀ (code : String) (held : Array Nat),
    t.index[code]? = some held ↔
      ∃ leaf ∈ t.leaves, leaf.key.code = code ∧ leaf.points ≠ #[] ∧ leaf.points = held
  found : t.isSubdivided = true → ∀ i < t.points.size,
    ∃ (code : String) (held : Array Nat), t.index[code]? = some held ∧ i ∈ held
  points : t.isSubdivided = true → ∀ leaf ∈ t.leaves,
    t.leafPoints leaf.key.code = t.nodePoints leaf ∧
      t.nodePoints leaf = t.points.filter fun p => leaf.rect.contains p.toLocation
  nothing : ∀ code : String,
    (∀ leaf ∈ t.leaves, leaf.key.code = code → leaf.points = #[]) → t.leafPoints code = #[]
  nothing_fresh : t.isSubdivided = false → ∀ code : String, t.leafPoints code = #[]
  size : t.isSubdivided = true → t.index.size = t.stats.nonEmptyLeaves
  refs : t.isSubdivided = true →
    (t.index.toList.map fun entry => entry.2.size).sum = t.stats.leafPointRefs

/-- The index and the leaves of a sound tree agree, at every stage and for every string. -/
theorem Sound.indexed (h : t.Sound) : t.Indexed := by
  refine
    { leaf_iff := fun _ => h.mem_leaves_iff
      fresh := index_of_fresh
      entry := ?_
      found := fun hdone _ hi => h.exists_entry hdone hi
      points := ?_
      nothing := ?_
      nothing_fresh := ?_
      size := ?_
      refs := ?_ }
  · intro hdone code held
    rw [h.getElem?_index_iff hdone]
    constructor
    · intro hentry
      obtain ⟨leaf, hleaf, hcode, hheld⟩ := hentry
      obtain ⟨hmem, hoccupied⟩ := mem_occupiedLeaves_iff.mp hleaf
      exact ⟨leaf, hmem, hcode, hoccupied, hheld⟩
    · intro hentry
      obtain ⟨leaf, hmem, hcode, hoccupied, hheld⟩ := hentry
      exact ⟨leaf, mem_occupiedLeaves_iff.mpr ⟨hmem, hoccupied⟩, hcode, hheld⟩
  · intro hdone leaf hleaf
    obtain ⟨-, id, hid⟩ := h.mem_leaves_iff.mp hleaf
    exact ⟨h.leafPoints_code hdone hleaf, h.nodePoints_eq_filter hid⟩
  · intro code hempty
    refine leafPoints_of_ne fun leaf hleaf hcode => ?_
    obtain ⟨hmem, hoccupied⟩ := mem_occupiedLeaves_iff.mp hleaf
    exact hoccupied (hempty leaf hmem hcode)
  · intro hfresh code
    rw [leafPoints, index_of_fresh hfresh, Std.ExtTreeMap.getElem?_empty]
    rfl
  · intro hdone
    have hlength := (h.toList_index_perm hdone).length_eq
    rw [Std.ExtTreeMap.length_toList, List.length_map] at hlength
    exact hlength
  · intro hdone
    have hsizes := (h.toList_index_perm hdone).map fun entry => entry.2.size
    rw [hsizes.sum_eq, List.map_map]
    exact t.sum_size_occupiedLeaves

/-- **The index and the leaves agree**, at every stage and for every string.  A tree that is not
subdivided yet can be, which keeps its settings and its points and fills the index. -/
theorem indexed_of_reachable {t : Tree α} (h : t.Reachable) :
    t.Indexed ∧ (t.isSubdivided = false →
      ∃ done, t.subdivide.outcome = .ok done ∧ done.isSubdivided = true ∧
        done.settings = t.settings ∧ done.points = t.points ∧ done.Indexed) := by
  have hsound := Sound.of_reachable h
  refine ⟨hsound.indexed, fun hfresh => ?_⟩
  obtain ⟨arena, houtcome, -⟩ := after_subdivide hsound hfresh
  obtain ⟨hdone, hsubdivided⟩ := hsound.subdivided houtcome
  exact ⟨_, houtcome, hsubdivided, rfl, rfl, hdone.indexed⟩

/-- The index of the small tree, before it is subdivided and after. -/
theorem indexed_crossing :
    let t := crossing.afterAll [.subdivide]
    crossing.Reachable ∧ crossing.isSubdivided = false ∧ crossing.Indexed ∧
      (∃ done, crossing.subdivide.outcome = .ok done ∧ done.isSubdivided = true ∧
        done.settings = crossing.settings ∧ done.points = crossing.points ∧ done.Indexed) ∧
      t.Reachable ∧ t.isSubdivided = true ∧ t.Indexed := by
  have hafter := reachable_crossing.afterAll [.subdivide]
  obtain ⟨hbefore, hfilled⟩ := indexed_of_reachable reachable_crossing
  exact ⟨reachable_crossing, rfl, hbefore, hfilled rfl, hafter, isSubdivided_crossing,
    (indexed_of_reachable hafter).1⟩

end Tree

end QuadCode
