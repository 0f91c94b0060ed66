import QuadCode.Proofs.Tree.Traversal

/-!
# The work comes to an end

Subdivision looks at the waiting places one by one, and a walk in search of leaves takes them off
its stack one by one.  Neither has a choice of the next step, so one run that leaves no place
waiting settles that there is no endless one, and that none gets stuck on the way.

A look takes the place on top off the stack and puts places on it only for the nodes that it adds to
the array, the next ones in the row.  So each place is put on the stack once, when its node is made,
and is looked at once.  Every waiting node stands for the nodes that can still come from it, whose
number is `Pending.weight`, and a look never makes the sum larger: the weight of the undivided
region bounds the whole array.

Main statements:

* `Visits.perm`: the places that were looked at and those that wait are the first ones and the new
  ones;
* `size_le_of_run`: the weight of what waits bounds the nodes that are added;
* `Tree.terminates_of_reachable`: subdivision ends and succeeds, and so do walks.
-/

namespace QuadCode

open Relation Subdivision

variable {α : Type} {points : Array (Point α)} {splitThreshold limit : Nat}

/-- The number of nodes that can come from a node is a sum of powers of four. -/
theorem Pending.weight_eq (levels : Nat) : weight levels = (4 ^ (levels + 1) - 1) / 3 := by
  have hsum : 3 * weight levels + 1 = 4 ^ (levels + 1) := by
    induction levels with
    | zero => rfl
    | succ levels ih =>
        rw [Nat.pow_succ, ← ih, weight]
        omega
  omega

namespace Subdivision

/-- What there is to do leaves no choice of the next look. -/
theorem Look.rightUnique (points : Array (Point α)) (splitThreshold limit : Nat) :
    Relator.RightUnique (Look points splitThreshold limit) := by
  rintro ⟨s, places⟩ after after' h h'
  cases h with
  | few hnode hfew =>
      cases h' with
      | few => rfl
      | deep hnode' hmany =>
          obtain rfl := Option.some.inj (hnode.symm.trans hnode')
          exact absurd hmany (Nat.not_lt_of_le hfew)
      | split hnode' hmany =>
          obtain rfl := Option.some.inj (hnode.symm.trans hnode')
          exact absurd hmany (Nat.not_lt_of_le hfew)
  | deep hnode hmany hdeep =>
      cases h' with
      | few hnode' hfew =>
          obtain rfl := Option.some.inj (hnode.symm.trans hnode')
          exact absurd hmany (Nat.not_lt_of_le hfew)
      | deep => rfl
      | split hnode' _ hlod =>
          obtain rfl := Option.some.inj (hnode.symm.trans hnode')
          exact absurd hdeep (Nat.not_lt_of_le hlod)
  | split hnode hmany hlod hkids =>
      cases h' with
      | few hnode' hfew =>
          obtain rfl := Option.some.inj (hnode.symm.trans hnode')
          exact absurd hmany (Nat.not_lt_of_le hfew)
      | deep hnode' _ hdeep =>
          obtain rfl := Option.some.inj (hnode.symm.trans hnode')
          exact absurd hdeep (Nat.not_lt_of_le hlod)
      | split hnode' _ _ hkids' =>
          obtain rfl := Option.some.inj (hnode.symm.trans hnode')
          obtain rfl := Except.ok.inj (hkids.symm.trans hkids')
          rfl

/-- Subdivision is over when no place waits. -/
theorem Look.not_of_nil {s : Subdivision} (after : Subdivision × List Nat) :
    ¬ Look points splitThreshold limit (s, []) after := by
  intro h
  cases h

/-- A look takes a place off and puts on the places of the nodes that it adds. -/
theorem Look.adds {s : Subdivision} {id : Nat} {rest : List Nat} {after : Subdivision × List Nat}
    (h : Look points splitThreshold limit (s, id :: rest) after) :
    ∃ more, after.1.nodes.size = s.nodes.size + more ∧
      after.2 = List.range' s.nodes.size more ++ rest := by
  cases h with
  | few => exact ⟨0, rfl, rfl⟩
  | deep => exact ⟨0, rfl, rfl⟩
  | split => exact ⟨4, size_divide _ _ _ _, rfl⟩

/-- Looks one after the other, with the places that are looked at. -/
inductive Visits (points : Array (Point α)) (splitThreshold limit : Nat) :
    Subdivision × List Nat → List Nat → Subdivision × List Nat → Prop
  | nil (state : Subdivision × List Nat) : Visits points splitThreshold limit state [] state
  | cons {s : Subdivision} {id : Nat} {rest places : List Nat} {next last : Subdivision × List Nat}
      (hlook : Look points splitThreshold limit (s, id :: rest) next)
      (hrest : Visits points splitThreshold limit next places last) :
      Visits points splitThreshold limit (s, id :: rest) (id :: places) last

/-- Every run visits some places. -/
theorem exists_visits {before after : Subdivision × List Nat}
    (h : Looks points splitThreshold limit before after) :
    ∃ places, Visits points splitThreshold limit before places after := by
  induction h using ReflTransGen.head_induction_on with
  | refl => exact ⟨[], Visits.nil _⟩
  | @head before next hlook _ ih =>
      obtain ⟨places, hplaces⟩ := ih
      obtain ⟨s, waiting⟩ := before
      cases waiting with
      | nil => exact absurd hlook (Look.not_of_nil next)
      | cons id rest => exact ⟨id :: places, Visits.cons hlook hplaces⟩

/-- **Each place is looked at once.**  The places that were looked at and those that still wait are
the ones that waited first and the ones whose nodes were added. -/
theorem Visits.perm {before after : Subdivision × List Nat} {places : List Nat}
    (h : Visits points splitThreshold limit before places after) :
    ∃ more, after.1.nodes.size = before.1.nodes.size + more ∧
      (places ++ after.2).Perm (before.2 ++ List.range' before.1.nodes.size more) := by
  induction h with
  | nil state =>
      refine ⟨0, rfl, ?_⟩
      rw [List.range'_zero, List.append_nil, List.nil_append]
  | @cons s id rest places next last hlook _ ih =>
      obtain ⟨now, hsize, hwaiting⟩ := hlook.adds
      obtain ⟨later, hlast, hperm⟩ := ih
      rw [hsize] at hlast hperm
      rw [hwaiting] at hperm
      refine ⟨now + later, hlast.trans (Nat.add_assoc _ _ _), ?_⟩
      have hrow : List.range' s.nodes.size now ++ List.range' (s.nodes.size + now) later =
          List.range' s.nodes.size (now + later) := List.range'_append_1
      refine List.Perm.cons id ?_
      have hswap : (List.range' s.nodes.size now ++ rest).Perm
          (rest ++ List.range' s.nodes.size now) := List.perm_append_comm
      have hfront := hswap.append_right (List.range' (s.nodes.size + now) later)
      rw [List.append_assoc rest, hrow] at hfront
      exact hperm.trans hfront

/-- **The weight of what waits bounds what comes.** -/
theorem size_le_of_run {s done : Subdivision} {stack : List Pending}
    (h : run points splitThreshold limit s stack = .ok done) :
    done.nodes.size + stack.length ≤ s.nodes.size + Pending.stackWeight limit stack := by
  induction s, stack using run.induct points splitThreshold limit with
  | case1 s =>
      rw [run, Except.ok.injEq] at h
      rw [h]
      exact Nat.le_refl _
  | case2 s id node rest hfew ih =>
      rw [run_few hfew] at h
      have hrest := ih h
      have hpos : 0 < Pending.weightUnder limit ⟨id, node⟩ := Pending.weight_pos _
      rw [List.length_cons, Pending.stackWeight]
      omega
  | case3 s id node rest hmany hdeep ih =>
      rw [run_deep hmany hdeep] at h
      have hrest := ih h
      have hpos : 0 < Pending.weightUnder limit ⟨id, node⟩ := Pending.weight_pos _
      rw [List.length_cons, Pending.stackWeight]
      dsimp only at hrest
      omega
  | case4 s id node rest hmany hlod e he =>
      rw [run_split hmany hlod, he] at h
      cases h
  | case5 s id node rest hmany hlod kids hkids first ih =>
      rw [run_split hmany hlod, hkids] at h
      have hrest := ih h
      have htraded := stackWeight_pendingFrom (Nat.le_of_not_lt hlod) hkids id first
      rw [size_divide, List.length_append, Pending.stackWeight_append,
        show (pendingFrom first kids).length = 4 from rfl] at hrest
      rw [List.length_cons, Pending.stackWeight]
      omega

end Subdivision

namespace Tree

/-- How the subdivision of a tree goes on and ends. -/
structure SubdivisionEnds (t : Tree α) : Prop where
  ends : Ends (Look t.points t.settings.splitThreshold.toNat t.settings.lodThreshold.toNat)
    (fun state => state.2 = []) (initial t.undivided, [0])
  /-- Wherever a look may ask for the keys of the quadrants, there are such keys. -/
  keyed : ∀ {s : Subdivision} {id : Nat} {rest : List Nat} {n : Node},
    Looks t.points t.settings.splitThreshold.toNat t.settings.lodThreshold.toNat
      (initial t.undivided, [0]) (s, id :: rest) →
    s.nodes[id]? = some n → n.key.lod ≤ t.settings.lodThreshold.toNat →
      ∀ q, ∃ key, n.key.child q = .ok key
  finish : ∃ s places,
    Visits t.points t.settings.splitThreshold.toNat t.settings.lodThreshold.toNat
      (initial t.undivided, [0]) places (s, []) ∧
    places.Perm (List.range s.nodes.size) ∧
    s.nodes.size ≤ (4 ^ (t.settings.lodThreshold.toNat + 2) - 1) / 3 ∧
    t.subdivide.outcome = .ok { t with arena := some s.nodes }

/-- How the work on a tree ends. -/
structure Terminates (t : Tree α) : Prop where
  subdivision : t.isSubdivided = false → t.SubdivisionEnds
  walk : ∀ {id : Nat} {n : Node}, t.node? id = some n →
    Ends (Walk.Turn t.nodes) (fun walk => walk.waiting = []) ⟨[id], []⟩
  outside : ∀ {id : Nat}, t.node? id = none → t.leavesFrom id = []

/-- **Subdivision ends and cannot fail.** -/
theorem Sound.subdivisionEnds {t : Tree α} (h : t.Sound) (hfresh : t.isSubdivided = false) :
    t.SubdivisionEnds := by
  obtain ⟨s, hrun, hlooks, houtcome⟩ := subdivide_of_sound h hfresh
  have hlimit : t.settings.lodThreshold.toNat < maxLod :=
    Nat.lt_of_le_of_lt (Settings.parts_of_valid h.valid).2.2 (by decide)
  obtain ⟨places, hvisits⟩ := exists_visits hlooks
  refine
    { ends := Ends.of_unique (Look.rightUnique _ _ _) hlooks rfl Look.not_of_nil
      keyed := fun _ _ hlod => Key.exists_child (Nat.lt_of_le_of_lt hlod hlimit)
      finish := ⟨s, places, hvisits, ?_, ?_, houtcome⟩ }
  · obtain ⟨more, hsize, hperm⟩ := hvisits.perm
    rw [show (initial t.undivided).nodes.size = 1 from rfl] at hsize hperm
    rw [List.append_nil] at hperm
    rw [hsize, List.range_eq_range', Nat.add_comm, List.range'_succ]
    exact hperm
  · have hbound := size_le_of_run hrun
    have hroot : Pending.stackWeight t.settings.lodThreshold.toNat [⟨0, t.undivided⟩] =
        (4 ^ (t.settings.lodThreshold.toNat + 2) - 1) / 3 := Pending.weight_eq _
    rw [hroot, List.length_singleton, show (initial t.undivided).nodes.size = 1 from rfl] at hbound
    omega

/-- **The work on every tree ends.**  Subdivision looks at each node once and succeeds, and the walk
from any node comes to its end. -/
theorem terminates_of_reachable {t : Tree α} (h : t.Reachable) : t.Terminates := by
  have hsound := Sound.of_reachable h
  obtain ⟨waiting, hgrowth⟩ := hsound.growth
  refine
    { subdivision := hsound.subdivisionEnds
      walk := ?_
      outside := leavesFrom_of_outside }
  intro id n hn
  exact Ends.of_unique (Walk.Turn.rightUnique t.nodes) (hgrowth.turns_leavesBelow hn [] []) rfl
    Walk.Turn.not_of_nil

/-- The work on the small tree ends. -/
theorem terminates_crossing :
    crossing.Reachable ∧ crossing.isSubdivided = false ∧ crossing.SubdivisionEnds ∧
      crossing.Terminates :=
  ⟨reachable_crossing, rfl, (terminates_of_reachable reachable_crossing).subdivision rfl,
    terminates_of_reachable reachable_crossing⟩

end Tree

end QuadCode
