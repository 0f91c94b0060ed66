import QuadCode.Proofs.Tree.Location
import QuadCode.Token.OfTree

/-!
# Codes by point location

The codes of a tree are gathered leaf by leaf: each leaf writes its code for all entities whose
points it holds, and a later leaf overwrites what an earlier one wrote.  So in the end an entity has
the code of the last leaf that writes for it.  As long as no two points stand for one entity, a leaf
writes for it exactly if it holds the entity's point, and the last leaf that does is the one that the
point leads to.

Main statements:

* `foldl_insertLeaf_of_isLast`: the last leaf that writes for an entity gives its code;
* `foldl_insertLeaf_last`: the last leaf that holds a point gives the code of its entity;
* `codes_eq_locate`: the codes of a tree are the codes of the leaves that its points lead to.
-/

namespace QuadCode

/-- Giving one code to several entities leaves all others alone. -/
theorem getElem?_foldl_insert (ps : List (Point Nat)) (code : String) (codes : CodeMap)
    (entity : Nat) :
    (ps.foldl (fun codes p => codes.insert p.data code) codes)[entity]? =
      if entity ∈ ps.map Point.data then some code else codes[entity]? := by
  induction ps generalizing codes with
  | nil => simp
  | cons p rest ih =>
      rw [List.foldl_cons, ih, Std.ExtTreeMap.getElem?_insert]
      simp only [Nat.compare_eq_eq]
      by_cases hrest : entity ∈ rest.map Point.data
      · simp [hrest]
      · by_cases hfirst : p.data = entity
        · simp [hrest, hfirst]
        · simp [hrest, hfirst, Ne.symm hfirst]

namespace Tree

variable {t : Tree Nat} {shift : Shift} {i entity : Nat} {p : Point Nat} {leaves : List Node}
  {leaf : Node}

/-- The entities that a leaf writes for. -/
def entitiesOf (t : Tree Nat) (leaf : Node) : List Nat :=
  (t.nodePoints leaf).toList.map Point.data

theorem mem_entitiesOf :
    entity ∈ t.entitiesOf leaf ↔
      ∃ i ∈ leaf.points, ∃ p, t.points[i]? = some p ∧ p.data = entity := by
  rw [entitiesOf, nodePoints, pointsAt, Array.toList_filterMap, List.mem_map]
  constructor
  · intro h
    obtain ⟨p, hp, hdata⟩ := h
    obtain ⟨i, hi, hget⟩ := List.mem_filterMap.mp hp
    exact ⟨i, Array.mem_toList_iff.mp hi, p, hget, hdata⟩
  · intro h
    obtain ⟨i, hi, p, hget, hdata⟩ := h
    exact ⟨p, List.mem_filterMap.mpr ⟨i, Array.mem_toList_iff.mpr hi, hget⟩, hdata⟩

/-- A leaf writes its code for some entities and leaves all others alone. -/
theorem getElem?_insertLeaf (codes : CodeMap) (leaf : Node) (entity : Nat) :
    (codes.insertLeaf t shift leaf)[entity]? =
      if entity ∈ t.entitiesOf leaf then some (shift.apply leaf.key.code) else codes[entity]? := by
  rw [CodeMap.insertLeaf, ← Array.foldl_toList, getElem?_foldl_insert, entitiesOf]

/-- An entity that no leaf writes for keeps what it had. -/
theorem foldl_insertLeaf_skip (codes : CodeMap)
    (hnone : ∀ leaf ∈ leaves, entity ∉ t.entitiesOf leaf) :
    (leaves.foldl (CodeMap.insertLeaf t shift) codes)[entity]? = codes[entity]? := by
  induction leaves generalizing codes with
  | nil => rfl
  | cons leaf rest ih =>
      rw [List.foldl_cons, ih _ fun leaf hleaf => hnone leaf (List.mem_cons_of_mem _ hleaf),
        getElem?_insertLeaf, if_neg (hnone leaf List.mem_cons_self)]

/-- **The last leaf that writes for an entity gives its code.** -/
theorem foldl_insertLeaf_of_isLast (codes : CodeMap)
    (hlast : IsLast (fun leaf => entity ∈ t.entitiesOf leaf) leaves leaf) :
    (leaves.foldl (CodeMap.insertLeaf t shift) codes)[entity]? =
      some (shift.apply leaf.key.code) := by
  obtain ⟨front, back, rfl, hwrites, hback⟩ := hlast
  rw [List.foldl_append, List.foldl_cons, foldl_insertLeaf_skip _ hback, getElem?_insertLeaf,
    if_pos hwrites]

/-- A leaf writes for the entity of a point if and only if it holds the point, if no other point
stands for the entity. -/
theorem data_mem_entitiesOf (hdistinct : (t.points.toList.map Point.data).Nodup)
    (hp : t.points[i]? = some p) (leaf : Node) :
    p.data ∈ t.entitiesOf leaf ↔ i ∈ leaf.points := by
  rw [mem_entitiesOf]
  constructor
  · rintro ⟨j, hj, p', hget, hdata⟩
    rwa [position_unique hdistinct hp hget hdata.symm]
  · intro hi
    exact ⟨i, hi, p, hp, rfl⟩

/-- The last leaf that holds a point gives the code of its entity. -/
theorem foldl_insertLeaf_last (hdistinct : (t.points.toList.map Point.data).Nodup)
    (hp : t.points[i]? = some p) (codes : CodeMap)
    (hlast : IsLast (fun leaf => i ∈ leaf.points) leaves leaf) :
    (leaves.foldl (CodeMap.insertLeaf t shift) codes)[p.data]? =
      some (shift.apply leaf.key.code) := by
  apply foldl_insertLeaf_of_isLast
  simpa only [data_mem_entitiesOf hdistinct hp] using hlast

/-- The leaf that a point leads to is the last occupied leaf that holds it. -/
theorem Sound.locate_isLast {t : Tree Nat} (h : t.Sound) {i : Nat} {p : Point Nat}
    (hp : t.points[i]? = some p) :
    ∃ leaf, t.locate p.toLocation = some leaf ∧ leaf.isLeaf = true ∧
      IsLast (fun leaf => i ∈ leaf.points) t.occupiedLeaves leaf := by
  obtain ⟨waiting, hgrowth⟩ := h.growth
  obtain ⟨root, hroot, hbare⟩ := hgrowth.first
  have hi : i ∈ root.bare.points := by
    rw [hbare]
    exact Array.mem_range.mpr (Array.getElem?_eq_some_iff.mp hp).1
  obtain ⟨j, leaf, hleaf, hchildless, hdescend, hlast⟩ :=
    hgrowth.isLast_descend h.proper_undivided h.exact_undivided hp hroot hi
  refine ⟨leaf, hdescend, Node.isLeaf_iff.mpr hchildless, ?_⟩
  have hleaves : IsLast (fun leaf => i ∈ leaf.points) t.leaves leaf := by
    apply hlast.filterMap hleaf
    intro j' leaf' hleaf'
    constructor
    · intro hholds
      obtain ⟨n, hn, hi⟩ := hholds
      rw [hleaf', Option.some.injEq] at hn
      rwa [hn]
    · exact fun hi => ⟨leaf', hleaf', hi⟩
  have hheld : i ∈ leaf.points := hleaves.holds
  apply hleaves.filter
  rw [Bool.not_eq_true', Array.isEmpty_eq_false_iff_exists_mem]
  exact ⟨i, hheld⟩

/-- A subdivided tree gives the entity of a point the code of the leaf that the point leads to. -/
theorem Sound.code_of_locate (h : t.Sound) (hdistinct : (t.points.toList.map Point.data).Nodup)
    (shift : Shift) (hp : p ∈ t.points) :
    ∃ leaf, t.locate p.toLocation = some leaf ∧
      (t.occupiedLeaves.foldl (CodeMap.insertLeaf t shift) ∅)[p.data]? =
        some (shift.apply leaf.key.code) := by
  obtain ⟨i, hi⟩ := Array.mem_iff_getElem?.mp hp
  obtain ⟨leaf, hlocate, -, hlast⟩ := h.locate_isLast hi
  exact ⟨leaf, hlocate, foldl_insertLeaf_last hdistinct hi ∅ hlast⟩

theorem apply_identity (code : String) : Shift.identity.apply code = code := by
  have hchars : Shift.identity.applyChar = id := rfl
  rw [Shift.apply, hchars, List.map_id, String.ofList_toList]

/-- A subdivided tree has codes. -/
theorem Sound.codes_eq (h : t.Sound) (hdone : t.isSubdivided = true) (shift : Shift) :
    t.codes t.settings.rectSize shift =
      .ok (t.occupiedLeaves.foldl (CodeMap.insertLeaf t shift) ∅) := by
  have hnumber := (Double.isFinite_iff.mp (Settings.parts_of_valid h.valid).1).1
  have hsame : (t.settings.rectSize != t.settings.rectSize) = false := by
    simpa using hnumber
  simp [codes, hsame, hdone]

/-- **Codes are point locations.**  A subdivided tree whose points stand for different entities has
codes, and the code of an entity is that of the leaf that its point leads to from the root, one
quadrant at each split node. -/
theorem codes_eq_locate {t : Tree Nat} (h : t.Reachable) (hdone : t.isSubdivided = true)
    (hdistinct : (t.points.toList.map Point.data).Nodup) :
    ∃ codes, t.codes t.settings.rectSize .identity = .ok codes ∧
      ∀ p ∈ t.points, ∃ leaf, t.locate p.toLocation = some leaf ∧ leaf.isLeaf = true ∧
        codes[p.data]? = some leaf.key.code := by
  have hsound := Sound.of_reachable h
  refine ⟨_, hsound.codes_eq hdone .identity, fun p hp => ?_⟩
  obtain ⟨i, hi⟩ := Array.mem_iff_getElem?.mp hp
  obtain ⟨leaf, hlocate, hleaf, hlast⟩ := hsound.locate_isLast hi
  refine ⟨leaf, hlocate, hleaf, ?_⟩
  rw [foldl_insertLeaf_last hdistinct hi ∅ hlast, apply_identity]

/-- Each point of the small tree, subdivided, has the code of the leaf that it leads to. -/
theorem codes_crossing_eq_locate :
    let t := crossing.afterAll [.subdivide]
    t.Reachable ∧ t.isSubdivided = true ∧ (t.points.toList.map Point.data).Nodup ∧
      ∃ codes, t.codes t.settings.rectSize .identity = .ok codes ∧
        ∀ p ∈ t.points, ∃ leaf, t.locate p.toLocation = some leaf ∧ leaf.isLeaf = true ∧
          codes[p.data]? = some leaf.key.code := by
  have hreachable := reachable_crossing.afterAll [.subdivide]
  obtain ⟨arena, hafter⟩ := exists_afterAll_crossing
  rw [hafter] at hreachable ⊢
  have hdistinct : (crossing.points.toList.map Point.data).Nodup := by decide
  exact ⟨hreachable, rfl, hdistinct, codes_eq_locate hreachable rfl hdistinct⟩

end Tree

end QuadCode
