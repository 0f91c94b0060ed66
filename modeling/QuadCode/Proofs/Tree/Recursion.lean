import QuadCode.Proofs.Tree.Histories
import QuadCode.Tree.Recursion

/-!
# The stack and the recursion

A run with the stack of waiting nodes and the plain recursion append to one array, and the place of
a node is the length of the array when it is made.  They agree because a split puts its children on
top of all that waits: what comes from a node is in the array before the next waiting node is
looked at.  `run_cons` says so for any array and any stack below, and by it the run that subdivides
a tree is the recursion from the undivided region.
-/

namespace QuadCode

namespace Subdivision

variable {α : Type} {points : Array (Point α)} {splitThreshold limit : Nat}

theorem recurse_split {s : Subdivision} {id : Nat} {node : Node}
    (hmany : ¬ node.points.size ≤ splitThreshold) (hlod : ¬ limit < node.key.lod) :
    recurse points splitThreshold limit s id node =
      (do
        let kids ← node.split points
        let first := s.nodes.size
        let s₁ ← recurse points splitThreshold limit (s.divide id node kids) first kids.bottomLeft
        let s₂ ← recurse points splitThreshold limit s₁ (first + 1) kids.topLeft
        let s₃ ← recurse points splitThreshold limit s₂ (first + 2) kids.bottomRight
        recurse points splitThreshold limit s₃ (first + 3) kids.topRight) := by
  rw [recurse, if_neg hmany, dif_neg hlod]
  split
  next e he => rw [he]; rfl
  next kids hkids => rw [hkids]; rfl

/-- **One node after the other.**  A run deals with the node on top, and with all that come from it,
as the recursion does, and goes on with the other waiting nodes. -/
theorem run_cons (s : Subdivision) (id : Nat) (node : Node) (rest : List Pending) :
    run points splitThreshold limit s (⟨id, node⟩ :: rest) =
      recurse points splitThreshold limit s id node >>= fun done =>
        run points splitThreshold limit done rest := by
  -- The four children are on top of `rest`, so each of them is a case of the claim with a longer
  -- rest: the rest has to stay general.
  induction s, id, node using recurse.induct points splitThreshold limit generalizing rest with
  | case1 s id node hfew =>
      rw [run_few hfew, recurse, if_pos hfew]
      rfl
  | case2 s id node hmany hdeep =>
      rw [run_deep hmany hdeep, recurse, if_neg hmany, dif_pos hdeep]
      rfl
  | case3 s id node hmany hlod e he =>
      rw [run_split hmany hlod, recurse_split hmany hlod, he]
      rfl
  | case4 s id node hmany hlod kids hkids first ih₁ ih₂ ih₃ ih₄ =>
      rw [run_split hmany hlod, recurse_split hmany hlod, hkids]
      have htop : run points splitThreshold limit (s.divide id node kids)
          (pendingFrom s.nodes.size kids ++ rest) =
            recurse points splitThreshold limit (s.divide id node kids) first kids.bottomLeft >>=
              fun s₁ => recurse points splitThreshold limit s₁ (first + 1) kids.topLeft >>=
                fun s₂ => recurse points splitThreshold limit s₂ (first + 2) kids.bottomRight >>=
                  fun s₃ => recurse points splitThreshold limit s₃ (first + 3) kids.topRight >>=
                    fun s₄ => run points splitThreshold limit s₄ rest := by
        rw [pendingFrom, List.cons_append, ih₁]
        simp only [List.cons_append, List.nil_append, ih₂, ih₃, ih₄, first]
      calc
        _ = _ := htop
        _ = _ := by simp only [bind_assoc]; rfl

/-- From a single waiting node, a run is the recursion. -/
theorem run_singleton (s : Subdivision) (id : Nat) (node : Node) :
    run points splitThreshold limit s [⟨id, node⟩] =
      recurse points splitThreshold limit s id node := by
  rw [run_cons]
  cases recurse points splitThreshold limit s id node with
  | error e => rfl
  | ok done => exact run.eq_1 _ _ _ _

end Subdivision

open Subdivision

/-- **The stack refines the recursion.**  Subdividing a tree succeeds and leaves the nodes that the
recursion from the undivided region makes: the same nodes at the same places, split in the same
order, and as many of them held back by the depth limit.  Looking at the place on top of a stack of
places, from the place of the undivided region until no place waits, leaves them too. -/
theorem Tree.subdivide_eq_recurse {α : Type} {t : Tree α} (h : t.Reachable)
    (hfresh : t.isSubdivided = false) :
    ∃ s, recurse t.points t.settings.splitThreshold.toNat t.settings.lodThreshold.toNat
        ⟨#[t.undivided], [], 0⟩ 0 t.undivided = .ok s ∧
      ofPoints t.settings t.points = .ok { s with splits := s.splits.reverse } ∧
      Looks t.points t.settings.splitThreshold.toNat t.settings.lodThreshold.toNat
        (⟨#[t.undivided], [], 0⟩, [0]) (s, []) ∧
      t.subdivide.outcome = .ok { t with arena := some s.nodes } := by
  obtain ⟨s, hrun, hlooks, houtcome⟩ := subdivide_of_sound (Sound.of_reachable h) hfresh
  refine ⟨s, ?_, ?_, hlooks, houtcome⟩
  · rw [← hrun]
    exact (run_singleton _ 0 t.undivided).symm
  · rw [ofPoints_eq_run, hrun]
    rfl

/-- The small tree is subdivided as the recursion does it. -/
theorem Tree.subdivide_crossing_eq_recurse :
    crossing.Reachable ∧ crossing.isSubdivided = false ∧
    ∃ s, recurse crossing.points 1 10 ⟨#[crossing.undivided], [], 0⟩ 0 crossing.undivided = .ok s ∧
      ofPoints crossing.settings crossing.points = .ok { s with splits := s.splits.reverse } ∧
      Looks crossing.points 1 10 (⟨#[crossing.undivided], [], 0⟩, [0]) (s, []) ∧
      crossing.subdivide.outcome = .ok { crossing with arena := some s.nodes } :=
  ⟨reachable_crossing, rfl, subdivide_eq_recurse reachable_crossing rfl⟩

end QuadCode
