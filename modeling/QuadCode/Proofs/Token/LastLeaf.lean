import QuadCode.Proofs.Token.Views

/-!
# The last leaf wins

Several points may stand for one entity, and each of them may lie in several leaves, so many leaves
may write for the same entity.  Whoever writes last gives the code.  Since every point is held by a
leaf, every entity that some point stands for is written for, and since leaves hold only points of
the tree, no other entity is.

Main statements:

* `getElem?_foldl_insertLeaf_iff`: the code of an entity is that of the last leaf that writes
  for it;
* `lastLeafWins_of_reachable`: when a tree gives codes, and which ones.
-/

namespace QuadCode

namespace Tree

variable {t : Tree Nat} {shift : Shift} {entity : Nat} {leaf : Node}

/-- A leaf that writes for an entity holds a point. -/
theorem occupied_of_mem_entitiesOf (h : entity ∈ t.entitiesOf leaf) :
    (!leaf.points.isEmpty) = true := by
  obtain ⟨i, hi, -⟩ := mem_entitiesOf.mp h
  rw [Bool.not_eq_true', Array.isEmpty_eq_false_iff_exists_mem]
  exact ⟨i, hi⟩

/-- A leaf writes for the entities of its points. -/
theorem mem_entitiesOf_iff :
    entity ∈ t.entitiesOf leaf ↔ ∃ p ∈ t.nodePoints leaf, p.data = entity := by
  rw [entitiesOf, List.mem_map]
  simp only [Array.mem_toList_iff]

/-- Some leaf writes for an entity if and only if one of the tree's points stands for it. -/
theorem Sound.exists_mem_entitiesOf_iff (h : t.Sound) :
    (∃ leaf ∈ t.leaves, entity ∈ t.entitiesOf leaf) ↔ ∃ p ∈ t.points, p.data = entity := by
  constructor
  · rintro ⟨leaf, -, hwrites⟩
    obtain ⟨i, -, p, hp, hdata⟩ := mem_entitiesOf.mp hwrites
    exact ⟨p, Array.mem_of_getElem? hp, hdata⟩
  · rintro ⟨p, hp, hdata⟩
    obtain ⟨i, hi⟩ := Array.mem_iff_getElem?.mp hp
    obtain ⟨leaf, hleaf, hheld⟩ := h.complete.held i (Array.getElem?_eq_some_iff.mp hi).1
    exact ⟨leaf, hleaf, mem_entitiesOf.mpr ⟨i, hheld, p, hi, hdata⟩⟩

/-- **The code of an entity is that of the last leaf that writes for it.** -/
theorem getElem?_foldl_insertLeaf_iff {code : String} :
    (t.occupiedLeaves.foldl (CodeMap.insertLeaf t shift) ∅)[entity]? = some code ↔
      ∃ leaf, IsLast (fun leaf => entity ∈ t.entitiesOf leaf) t.leaves leaf ∧
        code = shift.apply leaf.key.code := by
  have hwritten : ∀ {leaf : Node}, IsLast (fun leaf => entity ∈ t.entitiesOf leaf) t.leaves leaf →
      (t.occupiedLeaves.foldl (CodeMap.insertLeaf t shift) ∅)[entity]? =
        some (shift.apply leaf.key.code) := fun hlast =>
    foldl_insertLeaf_of_isLast ∅ (hlast.filter (occupied_of_mem_entitiesOf hlast.holds))
  constructor
  · intro hcode
    rcases source_of_foldl_insertLeaf hcode with hnone | ⟨leaf, hleaf, hwrites, -⟩
    · simp at hnone
    · have hwriter : ∃ leaf ∈ t.leaves, entity ∈ t.entitiesOf leaf :=
        ⟨leaf, (List.mem_filter.mp hleaf).1, hwrites⟩
      obtain ⟨last, hlast⟩ := exists_isLast hwriter
      rw [hwritten hlast] at hcode
      exact ⟨last, hlast, (Option.some.inj hcode).symm⟩
  · rintro ⟨leaf, hlast, rfl⟩
    exact hwritten hlast

/-- The entities that have a code are those that a point stands for. -/
theorem Sound.mem_foldl_insertLeaf_iff (h : t.Sound) :
    entity ∈ t.occupiedLeaves.foldl (CodeMap.insertLeaf t shift) ∅ ↔
      ∃ p ∈ t.points, p.data = entity := by
  rw [← h.exists_mem_entitiesOf_iff, Std.ExtTreeMap.mem_iff_isSome_getElem?,
    Option.isSome_iff_exists]
  simp only [getElem?_foldl_insertLeaf_iff]
  constructor
  · rintro ⟨code, leaf, hlast, -⟩
    exact ⟨leaf, hlast.mem, hlast.holds⟩
  · intro hwrites
    obtain ⟨leaf, hlast⟩ := exists_isLast hwrites
    exact ⟨_, leaf, hlast, rfl⟩

/-- When a tree gives codes for a region with some side, and which.  It refuses another side than
its own, and then a region that is not subdivided.  Otherwise exactly the entities that its points
stand for have a code, each that of the last leaf, depth first, that holds a point of the entity. -/
structure LastLeafWins (t : Tree Nat) (size : Float) (shift : Shift) : Prop where
  mismatch : (∃ fault, t.codes size shift = .error (.invalidConfiguration fault)) ↔
    (t.settings.rectSize == size) = false
  unready : (∃ fault, t.codes size shift = .error (.invalidState fault)) ↔
    (t.settings.rectSize == size) = true ∧ t.isSubdivided = false
  written : (t.settings.rectSize == size) = true → t.isSubdivided = true →
    ∃ codes, t.codes size shift = .ok codes ∧
      (∀ entity : Nat, entity ∈ codes ↔ ∃ p ∈ t.points, p.data = entity) ∧
      ∀ (entity : Nat) (code : String), codes[entity]? = some code ↔
        ∃ leaf, IsLast (fun leaf => ∃ p ∈ t.nodePoints leaf, p.data = entity) t.leaves leaf ∧
          code = shift.apply leaf.key.code

/-- **The last leaf wins**, for every tree, every side that is asked for and every shift. -/
theorem lastLeafWins_of_reachable {t : Tree Nat} (h : t.Reachable) (size : Float) (shift : Shift) :
    t.LastLeafWins size shift := by
  have hsound := Sound.of_reachable h
  by_cases hsize : (t.settings.rectSize == size) = true
  · by_cases hdone : t.isSubdivided = true
    · have hcodes : t.codes size shift =
          .ok (t.occupiedLeaves.foldl (CodeMap.insertLeaf t shift) ∅) := by
        simp [codes, bne, hsize, hdone]
      refine
        { mismatch := by simp [hcodes, hsize]
          unready := by simp [hcodes, hdone]
          written := fun _ _ => ⟨_, hcodes, fun _ => hsound.mem_foldl_insertLeaf_iff, ?_⟩ }
      intro entity code
      simp only [← mem_entitiesOf_iff]
      exact getElem?_foldl_insertLeaf_iff
    · have hcodes : t.codes size shift = .error (.invalidState .notSubdivided) := by
        simp [codes, bne, hsize, hdone]
      exact
        { mismatch := by simp [hcodes, hsize]
          unready := by simp [hcodes, hsize, hdone]
          written := fun _ hsub => absurd hsub hdone }
  · have hcodes : t.codes size shift =
        .error (.invalidConfiguration (.regionMismatch t.settings.rectSize size)) := by
      simp [codes, bne, hsize]
    exact
      { mismatch := by simp [hcodes, hsize]
        unready := by simp [hcodes, hsize]
        written := fun hsame => absurd hsame hsize }

/-- The codes of the small tree with a further point for an entity that has one already, in letters
instead of digits. -/
theorem lastLeafWins_crossing :
    let t := crossing.afterAll [.add ⟨⟨0.9, 0.1⟩, 0⟩, .subdivide]
    t.Reachable ∧ t.isSubdivided = true ∧ t.LastLeafWins 1.0 (.offset 49) := by
  have hreachable := reachable_crossing.afterAll [.add ⟨⟨0.9, 0.1⟩, 0⟩, .subdivide]
  have hdone := (Sound.of_reachable reachable_crossing).isSubdivided_afterAll
    [.add ⟨⟨0.9, 0.1⟩, 0⟩]
  exact ⟨hreachable, hdone, lastLeafWins_of_reachable hreachable 1.0 (.offset 49)⟩

end Tree

end QuadCode
