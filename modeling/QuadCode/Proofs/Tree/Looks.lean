import Mathlib.Logic.Relation
import Mathlib.Tactic.Choose
import QuadCode.Tree.Subdivision

/-!
# Looking at the waiting nodes

Subdivision looks at one waiting node at a time.  `Look` says what one look does to the nodes and to
the places that wait: nothing if the node holds few points, a count if it lies below the depth
limit, and otherwise a split whose four children come to stand behind all other nodes and in front
of all other waiting places.  It reads every node from its place in the array.

The stack of `Subdivision.run` carries the nodes along with their places.  `Pending.Standing` says
that each of them is the node at its place, so that carrying them makes no difference.

Main statements:

* `divide_cases`: what stands in the array after a split;
* `looks_of_run`: a run is a sequence of looks that leaves no place waiting;
* `run_isOk`: a run succeeds as long as the depth limit is below the deepest level of keys.
-/

namespace QuadCode

/-- A node without the links to its children. -/
def Node.bare (n : Node) : Node :=
  Node.leaf n.key n.rect n.points

/-- A node gets children as soon as there is a level for them. -/
theorem Node.split_isOk {α : Type} (n : Node) (points : Array (Point α))
    (h : n.key.lod < maxLod) : ∃ kids, n.split points = .ok kids := by
  have child : ∀ q, ∃ c, n.childIn points q = .ok c := by
    intro q
    obtain ⟨key, hkey⟩ := Key.exists_child h q
    exact ⟨_, by rw [Node.childIn, hkey]; rfl⟩
  choose kid hkid using child
  exact ⟨Quadrants.ofFn kid, Node.split_eq_ok_iff.mpr fun q => by rw [Quadrants.get_ofFn, hkid q]⟩

/-- Everything that is known of a child of a node. -/
theorem Node.childIn_parts {α : Type} {n c : Node} {points : Array (Point α)} {q : Quadrant}
    (h : n.childIn points q = .ok c) :
    n.key.child q = .ok c.key ∧ c.rect = n.rect.quadrant q ∧
      c.points = n.pointsIn points (n.rect.quadrant q) ∧ c.children = none := by
  unfold Node.childIn at h
  cases hk : n.key.child q with
  | error e => simp [hk, Except.map] at h
  | ok key =>
      simp only [hk, Except.map, Except.ok.injEq] at h
      subst h
      exact ⟨rfl, rfl, rfl, rfl⟩

namespace Subdivision

variable {α : Type} {points : Array (Point α)} {splitThreshold limit : Nat}

/-- The children of a split stand behind all nodes that were there before. -/
theorem le_placesFrom (first : Nat) (q : Quadrant) :
    first ≤ (placesFrom first).get q ∧ (placesFrom first).get q < first + 4 := by
  cases q <;> simp [placesFrom, Quadrants.get]

/-- The four children of a split stand at four different places. -/
theorem placesFrom_injective {first : Nat} {q q' : Quadrant}
    (h : (placesFrom first).get q = (placesFrom first).get q') : q = q' := by
  cases q <;> cases q' <;> simp [placesFrom, Quadrants.get] at h <;> rfl

theorem getElem?_divide_kid (s : Subdivision) (id : Nat) (node : Node) (kids : Quadrants Node)
    (q : Quadrant) :
    (s.divide id node kids).nodes[(placesFrom s.nodes.size).get q]? = some (kids.get q) := by
  cases q <;> simp [divide, placesFrom, Quadrants.get, Quadrants.toList]

/-- A node that was there before keeps its place, and a split changes only the links of one. -/
theorem getElem?_divide_of_lt (s : Subdivision) (id : Nat) {j : Nat} (node : Node)
    (kids : Quadrants Node) (hj : j < s.nodes.size) :
    (s.divide id node kids).nodes[j]? =
      if id = j then
        s.nodes[j]?.map fun n => { n with children := some (placesFrom s.nodes.size) }
      else s.nodes[j]? := by
  have hsize : j < (s.nodes.modify id fun n =>
      { n with children := some (placesFrom s.nodes.size) }).size := by
    rw [Array.size_modify]
    exact hj
  rw [divide, Array.getElem?_append, if_pos hsize, Array.getElem?_modify]

/-- After a split a node is the one that was split, or one of its children, or it is as before. -/
theorem divide_cases {s : Subdivision} {id j : Nat} {node n' : Node} {kids : Quadrants Node}
    (h : (s.divide id node kids).nodes[j]? = some n') :
    (j = id ∧ ∃ n, s.nodes[id]? = some n ∧
      n' = { n with children := some (placesFrom s.nodes.size) }) ∨
    (j ≠ id ∧ s.nodes[j]? = some n') ∨
    ∃ q, j = (placesFrom s.nodes.size).get q ∧ n' = kids.get q := by
  have hsize := (Array.getElem?_eq_some_iff.mp h).1
  rw [size_divide] at hsize
  by_cases hlt : j < s.nodes.size
  · have hold := Array.getElem?_eq_getElem hlt
    rw [getElem?_divide_of_lt s id node kids hlt] at h
    by_cases hj : id = j
    · subst hj
      rw [if_pos rfl, hold] at h
      exact Or.inl ⟨rfl, _, hold, (Option.some.inj h).symm⟩
    · rw [if_neg hj] at h
      exact Or.inr (Or.inl ⟨Ne.symm hj, h⟩)
  · have hplace : ∃ q, j = (placesFrom s.nodes.size).get q := by
      have hcases : j = s.nodes.size ∨ j = s.nodes.size + 1 ∨ j = s.nodes.size + 2 ∨
          j = s.nodes.size + 3 := by omega
      rcases hcases with hj | hj | hj | hj
      · exact ⟨.bottomLeft, hj⟩
      · exact ⟨.topLeft, hj⟩
      · exact ⟨.bottomRight, hj⟩
      · exact ⟨.topRight, hj⟩
    obtain ⟨q, rfl⟩ := hplace
    rw [getElem?_divide_kid] at h
    exact Or.inr (Or.inr ⟨q, rfl, (Option.some.inj h).symm⟩)

/-- One look at the node that waits on top. -/
inductive Look (points : Array (Point α)) (splitThreshold limit : Nat) :
    Subdivision × List Nat → Subdivision × List Nat → Prop
  | few {s : Subdivision} {id : Nat} {node : Node} {rest : List Nat}
      (hnode : s.nodes[id]? = some node) (hfew : node.points.size ≤ splitThreshold) :
      Look points splitThreshold limit (s, id :: rest) (s, rest)
  | deep {s : Subdivision} {id : Nat} {node : Node} {rest : List Nat}
      (hnode : s.nodes[id]? = some node) (hmany : splitThreshold < node.points.size)
      (hdeep : limit < node.key.lod) :
      Look points splitThreshold limit (s, id :: rest) ({ s with capped := s.capped + 1 }, rest)
  | split {s : Subdivision} {id : Nat} {node : Node} {kids : Quadrants Node} {rest : List Nat}
      (hnode : s.nodes[id]? = some node) (hmany : splitThreshold < node.points.size)
      (hlod : node.key.lod ≤ limit) (hkids : node.split points = .ok kids) :
      Look points splitThreshold limit (s, id :: rest)
        (s.divide id node kids, (placesFrom s.nodes.size).toList ++ rest)

/-- Any number of looks, one after the other. -/
abbrev Looks (points : Array (Point α)) (splitThreshold limit : Nat) :
    Subdivision × List Nat → Subdivision × List Nat → Prop :=
  Relation.ReflTransGen (Look points splitThreshold limit)

end Subdivision

/-- The places of the waiting nodes are all different, and each node is the one at its place. -/
structure Pending.Standing (nodes : Array Node) (stack : List Pending) : Prop where
  stands : ∀ p ∈ stack, nodes[p.id]? = some p.node
  distinct : (stack.map Pending.id).Nodup

namespace Subdivision

variable {α : Type} {points : Array (Point α)} {splitThreshold limit : Nat}

theorem pendingFrom_eq_map (first : Nat) (kids : Quadrants Node) :
    pendingFrom first kids =
      Quadrant.all.map fun q => ⟨(placesFrom first).get q, kids.get q⟩ := rfl

theorem nodup_placesFrom (first : Nat) : (placesFrom first).toList.Nodup := by
  simp [placesFrom, Quadrants.toList]

/-- Splitting the node on top moves no other waiting node, and its children stand where they
wait. -/
theorem standing_divide {s : Subdivision} {id : Nat} {node : Node} {kids : Quadrants Node}
    {rest : List Pending} (h : Pending.Standing s.nodes (⟨id, node⟩ :: rest)) :
    Pending.Standing (s.divide id node kids).nodes (pendingFrom s.nodes.size kids ++ rest) := by
  obtain ⟨hid, hrest⟩ := List.nodup_cons.mp h.distinct
  have old : ∀ p ∈ rest, s.nodes[p.id]? = some p.node := fun p hp =>
    h.stands p (List.mem_cons_of_mem _ hp)
  have old_lt : ∀ p ∈ rest, p.id < s.nodes.size := fun p hp =>
    (Array.getElem?_eq_some_iff.mp (old p hp)).1
  constructor
  · intro p hp
    rcases List.mem_append.mp hp with hnew | hp
    · rw [pendingFrom_eq_map] at hnew
      obtain ⟨q, _, rfl⟩ := List.mem_map.mp hnew
      exact getElem?_divide_kid s id node kids q
    · have hne : id ≠ p.id := by
        intro heq
        subst heq
        exact hid (List.mem_map.mpr ⟨p, hp, rfl⟩)
      rw [getElem?_divide_of_lt s id node kids (old_lt p hp), if_neg hne, old p hp]
  · rw [List.map_append]
    refine List.nodup_append.mpr ⟨nodup_placesFrom s.nodes.size, hrest, ?_⟩
    intro i hi j hj heq
    obtain ⟨p, hp, rfl⟩ := List.mem_map.mp hj
    rw [pendingFrom_eq_map, List.map_map] at hi
    obtain ⟨q, _, rfl⟩ := List.mem_map.mp hi
    have hplace : (placesFrom s.nodes.size).get q = p.id := heq
    have := (le_placesFrom s.nodes.size q).1
    have := old_lt p hp
    omega

theorem run_few {s : Subdivision} {id : Nat} {node : Node} {rest : List Pending}
    (hfew : node.points.size ≤ splitThreshold) :
    run points splitThreshold limit s (⟨id, node⟩ :: rest) =
      run points splitThreshold limit s rest := by
  rw [run, if_pos hfew]

theorem run_deep {s : Subdivision} {id : Nat} {node : Node} {rest : List Pending}
    (hmany : ¬ node.points.size ≤ splitThreshold) (hdeep : limit < node.key.lod) :
    run points splitThreshold limit s (⟨id, node⟩ :: rest) =
      run points splitThreshold limit { s with capped := s.capped + 1 } rest := by
  rw [run, if_neg hmany, dif_pos hdeep]

theorem run_split {s : Subdivision} {id : Nat} {node : Node} {rest : List Pending}
    (hmany : ¬ node.points.size ≤ splitThreshold) (hlod : ¬ limit < node.key.lod) :
    run points splitThreshold limit s (⟨id, node⟩ :: rest) =
      node.split points >>= fun kids =>
        run points splitThreshold limit (s.divide id node kids)
          (pendingFrom s.nodes.size kids ++ rest) := by
  rw [run, if_neg hmany, dif_neg hlod]
  split
  next e he => rw [he]; rfl
  next kids hkids => rw [hkids]; rfl

/-- **Runs are looks.**  A run that succeeds looks at the node on top until no place waits. -/
theorem looks_of_run {s done : Subdivision} {stack : List Pending}
    (hstand : Pending.Standing s.nodes stack)
    (hrun : run points splitThreshold limit s stack = .ok done) :
    Looks points splitThreshold limit (s, stack.map Pending.id) (done, []) := by
  induction s, stack using run.induct points splitThreshold limit with
  | case1 s =>
      rw [run, Except.ok.injEq] at hrun
      rw [hrun]
      exact Relation.ReflTransGen.refl
  | case2 s id node rest hfew ih =>
      rw [run_few hfew] at hrun
      have hrest := ih ⟨fun p hp => hstand.stands p (List.mem_cons_of_mem _ hp),
        (List.nodup_cons.mp hstand.distinct).2⟩ hrun
      exact hrest.head (Look.few (hstand.stands _ List.mem_cons_self) hfew)
  | case3 s id node rest hmany hdeep ih =>
      rw [run_deep hmany hdeep] at hrun
      have hrest := ih ⟨fun p hp => hstand.stands p (List.mem_cons_of_mem _ hp),
        (List.nodup_cons.mp hstand.distinct).2⟩ hrun
      exact hrest.head (Look.deep (hstand.stands _ List.mem_cons_self)
        (Nat.lt_of_not_le hmany) hdeep)
  | case4 s id node rest hmany hlod e he =>
      rw [run_split hmany hlod, he] at hrun
      cases hrun
  | case5 s id node rest hmany hlod kids hkids first ih =>
      rw [run_split hmany hlod, hkids] at hrun
      have hrest := ih (standing_divide hstand) hrun
      rw [List.map_append] at hrest
      exact hrest.head (Look.split (hstand.stands _ List.mem_cons_self)
        (Nat.lt_of_not_le hmany) (Nat.le_of_not_lt hlod) hkids)

/-- A run succeeds if no node at the deepest level of keys may be split. -/
theorem run_isOk (hlimit : limit < maxLod) (s : Subdivision) (stack : List Pending) :
    ∃ done, run points splitThreshold limit s stack = .ok done := by
  induction s, stack using run.induct points splitThreshold limit with
  | case1 s => exact ⟨s, by rw [run]⟩
  | case2 s id node rest hfew ih => rw [run_few hfew]; exact ih
  | case3 s id node rest hmany hdeep ih => rw [run_deep hmany hdeep]; exact ih
  | case4 s id node rest hmany hlod e he =>
      obtain ⟨kids, hkids⟩ := node.split_isOk points (by omega)
      rw [he] at hkids
      cases hkids
  | case5 s id node rest hmany hlod kids hkids first ih =>
      rw [run_split hmany hlod, hkids]
      exact ih

end Subdivision

end QuadCode
