import QuadCode.Proofs.Token.Location
import QuadCode.Proofs.Tree.Lifecycle
import QuadCode.Proofs.Tree.Pruning

/-!
# Codes in coarser and finer trees

An entity has the code of the leaf that its point leads to.  In a finer tree that leaf lies below the
leaf of the coarser tree, so the code of an entity only grows at its end when a tree is refined, and
codes of the coarser tree are codes of the finer one cut short.

Main statement:

* `pruning_of_finer`: coarser trees are prunings of finer ones, leaf by leaf and code by code.
-/

namespace QuadCode.Tree

variable {a b : Tree Nat}

/-- What a coarser tree has in common with a finer one. -/
structure Pruned (a b : Tree Nat) : Prop where
  /-- The code of each leaf of the finer tree begins with the code of exactly one leaf of the
  coarser tree. -/
  leaves : ∀ leaf ∈ b.leaves, ∃! i : Nat, ∃ above, a.leaves[i]? = some above ∧
    above.key.code.toList <+: leaf.key.code.toList
  /-- The code of each entity in the finer tree begins with its code in the coarser tree. -/
  codes : ∃ codes codes', a.codes a.settings.rectSize .identity = .ok codes ∧
    b.codes b.settings.rectSize .identity = .ok codes' ∧
      ∀ p ∈ a.points, ∃ code code', codes[p.data]? = some code ∧ codes'[p.data]? = some code' ∧
        code.toList <+: code'.toList

/-- **Coarser trees are prunings of finer ones.** -/
theorem pruning_of_finer {a b : Tree Nat} (ha : a.Reachable) (hb : b.Reachable)
    (hdone : a.isSubdivided = true) (hdone' : b.isSubdivided = true)
    (hdistinct : (a.points.toList.map Point.data).Nodup)
    (hdistinct' : (b.points.toList.map Point.data).Nodup) (h : a.Finer b) : a.Pruned b := by
  have ha := Sound.of_reachable ha
  have hb := Sound.of_reachable hb
  constructor
  · intro leaf hleaf
    rw [leaf.key.toList_code]
    simp only [Key.code_prefix_iff]
    exact h.existsUnique_leaf ha hb hdone' hdistinct hleaf
  · refine ⟨_, _, ha.codes_eq hdone .identity, hb.codes_eq hdone' .identity, ?_⟩
    intro p hp
    obtain ⟨q, hq, hplace, hdata⟩ := h.points p hp
    obtain ⟨leaf, hlocate, hcode⟩ := ha.code_of_locate hdistinct .identity hp
    obtain ⟨leaf', hlocate', hcode'⟩ := hb.code_of_locate hdistinct' .identity hq
    obtain ⟨n, m, hn, hm, hsame⟩ := h.sameCell_root ha hb
    have hprefix := h.descend_prefix ha hb hdone' hdistinct hplace hn hm hsame hlocate hlocate'
    refine ⟨_, _, hcode, hdata ▸ hcode', ?_⟩
    rw [apply_identity, apply_identity, leaf'.key.toList_code]
    exact Key.code_prefix_iff.mpr hprefix

/-- The small tree with one more point, which may be split further down. -/
def refined : Tree Nat :=
  ⟨{ lodThreshold := 12 }, crossing.points.push ⟨⟨0.1, 0.1⟩, 3⟩, none⟩

theorem reachable_refined : refined.Reachable :=
  ⟨{ lodThreshold := 12 }, ⟨{ lodThreshold := 12 }, #[], none⟩,
    [.extend refined.points.toList], rfl, rfl⟩

theorem finer_refined : crossing.Finer refined where
  region := rfl
  splitThreshold := by decide
  lodThreshold := by decide
  points p hp := by
    have hsame : ∀ p ∈ crossing.points, (p.toLocation == p.toLocation) = true := by decide
    exact ⟨p, Array.mem_push_of_mem _ hp, hsame p hp, rfl⟩

/-- The small tree is a pruning of the refined one. -/
theorem pruned_crossing :
    let a := crossing.afterAll [.subdivide]
    let b := refined.afterAll [.subdivide]
    a.Reachable ∧ b.Reachable ∧ a.isSubdivided = true ∧ b.isSubdivided = true ∧
      (a.points.toList.map Point.data).Nodup ∧ (b.points.toList.map Point.data).Nodup ∧
        a.Finer b ∧ a.Pruned b := by
  have ha := reachable_crossing.afterAll [.subdivide]
  have hb := reachable_refined.afterAll [.subdivide]
  obtain ⟨arena, hafter⟩ := exists_afterAll_crossing
  obtain ⟨arena', -, hafter'⟩ := after_subdivide (Sound.of_reachable reachable_refined) rfl
  rw [hafter] at ha
  rw [afterAll, List.foldl_cons, List.foldl_nil, hafter'] at hb
  have hdistinct : (crossing.points.toList.map Point.data).Nodup := by decide
  have hdistinct' : (refined.points.toList.map Point.data).Nodup := by decide
  have hfiner : Finer { crossing with arena := some arena } { refined with arena := some arena' } :=
    ⟨finer_refined.region, finer_refined.splitThreshold, finer_refined.lodThreshold,
      finer_refined.points⟩
  rw [hafter, afterAll, List.foldl_cons, List.foldl_nil, hafter']
  exact ⟨ha, hb, rfl, rfl, hdistinct, hdistinct', hfiner,
    pruning_of_finer ha hb rfl rfl hdistinct hdistinct' hfiner⟩

end QuadCode.Tree
