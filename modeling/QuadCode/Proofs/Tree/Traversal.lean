import Mathlib.Data.List.Lex
import QuadCode.Proofs.Runs
import QuadCode.Proofs.Tree.Seams

/-!
# The order of the leaves

The leaves that a node leads to are found by a walk with a stack: the place on top is taken off, and
either it is the place of a leaf, or the places of its children are put on top.  Whatever waits
below stays untouched until all leaves of the node on top are found, so the walk finds the leaves in
the order of the recursion, quadrant by quadrant.

A quadrant's leaves all come before those of the next one, and the paths of the former go on from
the path of the cell with one step, those of the latter with another.  So the codes of the leaves
are in the order of words, if the digits are put in the order in which quadrants are visited.

Main statements:

* `Growth.turns_leavesBelow`: the walk finds the leaves of the node on top and leaves the rest;
* `Growth.mem_leavesBelow_iff`: they are the childless nodes whose paths begin with that of the
  node;
* `Growth.pairwise_before`: their codes are in increasing order;
* `traversed_of_reachable`: all this for the trees that histories lead to.
-/

namespace QuadCode

open Relation

variable {α : Type}

/-- A walk in search of leaves: the places that are still to be looked at, the next one on top, and
the places of the leaves that have been found. -/
structure Walk where
  waiting : List Nat
  found : List Nat

namespace Walk

/-- One look at the node on top. -/
inductive Turn (nodes : Array Node) : Walk → Walk → Prop
  | leaf {id : Nat} {n : Node} {rest found : List Nat} (hn : nodes[id]? = some n)
      (hleaf : n.children = none) : Turn nodes ⟨id :: rest, found⟩ ⟨rest, found ++ [id]⟩
  | branch {id : Nat} {n : Node} {kids : Quadrants Nat} {rest found : List Nat}
      (hn : nodes[id]? = some n) (hkids : n.children = some kids) :
      Turn nodes ⟨id :: rest, found⟩ ⟨kids.toList ++ rest, found⟩

/-- A walk leaves no choice of the next turn. -/
theorem Turn.rightUnique (nodes : Array Node) : Relator.RightUnique (Turn nodes) := by
  intro before after after' h h'
  cases h with
  | leaf hn hleaf =>
      cases h' with
      | leaf => rfl
      | branch hn' hkids =>
          obtain rfl := Option.some.inj (hn.symm.trans hn')
          cases hleaf.symm.trans hkids
  | branch hn hkids =>
      cases h' with
      | leaf hn' hleaf =>
          obtain rfl := Option.some.inj (hn.symm.trans hn')
          cases hleaf.symm.trans hkids
      | branch hn' hkids' =>
          obtain rfl := Option.some.inj (hn.symm.trans hn')
          obtain rfl := Option.some.inj (hkids.symm.trans hkids')
          rfl

/-- A walk is over when no place is left. -/
theorem Turn.not_of_nil {nodes : Array Node} {found : List Nat} (after : Walk) :
    ¬ Turn nodes ⟨[], found⟩ after := by
  intro h
  cases h

/-- Any number of turns, one after the other. -/
abbrev Turns (nodes : Array Node) : Walk → Walk → Prop :=
  ReflTransGen (Turn nodes)

/-- If the leaves of each place are found one place after the other, so are those of all. -/
theorem turns_flatMap {nodes : Array Node} {places : List Nat}
    (h : ∀ id ∈ places, ∀ rest found, Turns nodes ⟨id :: rest, found⟩
      ⟨rest, found ++ leavesBelow nodes id⟩) (rest found : List Nat) :
    Turns nodes ⟨places ++ rest, found⟩ ⟨rest, found ++ places.flatMap (leavesBelow nodes)⟩ := by
  induction places generalizing found with
  | nil =>
      rw [List.flatMap_nil, List.append_nil]
      exact ReflTransGen.refl
  | cons id places ih =>
      have htop := h id List.mem_cons_self (places ++ rest) found
      have hrest := ih (fun id hid => h id (List.mem_cons_of_mem _ hid))
        (found ++ leavesBelow nodes id)
      rw [List.append_assoc] at hrest
      exact htop.trans hrest

end Walk

/-- Digits in the order in which quadrants are visited. -/
def DigitBefore (c d : Char) : Prop :=
  ['0', '2', '1', '3'].idxOf c < ['0', '2', '1', '3'].idxOf d

instance : DecidableRel DigitBefore := fun c d =>
  inferInstanceAs (Decidable (['0', '2', '1', '3'].idxOf c < ['0', '2', '1', '3'].idxOf d))

/-- One code comes before another in the order of words over ordered digits. -/
def CodeBefore (a b : String) : Prop :=
  List.Lex DigitBefore a.toList b.toList

theorem CodeBefore.irrefl (a : String) : ¬ CodeBefore a a :=
  List.lex_irrefl (fun c => Nat.lt_irrefl (['0', '2', '1', '3'].idxOf c)) a.toList

/-- Quadrants are visited in the order of their digits. -/
theorem Quadrant.pairwise_digit_all : Quadrant.all.Pairwise fun q q' =>
    DigitBefore q.digit q'.digit := by
  decide

/-- Where the paths of two keys part, the digits decide which code comes first. -/
theorem Key.codeBefore_of_prefix {a b : Key} {path : List Quadrant} {q q' : Quadrant}
    (hdigits : DigitBefore q.digit q'.digit) (ha : path ++ [q] <+: a.path)
    (hb : path ++ [q'] <+: b.path) : CodeBefore a.code b.code := by
  obtain ⟨below, ha⟩ := ha
  obtain ⟨below', hb⟩ := hb
  rw [CodeBefore, a.toList_code, b.toList_code, ← ha, ← hb]
  simp only [List.append_assoc, List.map_append, List.singleton_append, List.map_cons]
  exact List.Lex.append_left DigitBefore (List.Lex.rel hdigits) (path.map Quadrant.digit)

section

variable {points : Array (Point α)} {splitThreshold limit : Nat} {root : Node} {nodes : Array Node}
  {waiting : List Nat}

/-- **The walk finds the leaves of the node on top**, in the order of the recursion, and then goes
on with what waits below it. -/
theorem Growth.turns_leavesBelow (h : Growth points splitThreshold limit root nodes waiting)
    {id : Nat} {n : Node} (hn : nodes[id]? = some n) (rest found : List Nat) :
    Walk.Turns nodes ⟨id :: rest, found⟩ ⟨rest, found ++ leavesBelow nodes id⟩ := by
  refine h.leaf_induction (P := fun id _ => ∀ rest found, Walk.Turns nodes ⟨id :: rest, found⟩
    ⟨rest, found ++ leavesBelow nodes id⟩) ?_ ?_ hn rest found
  · intro id n hn hleaf rest found
    rw [leavesBelow_leaf hn hleaf]
    exact ReflTransGen.single (Walk.Turn.leaf hn hleaf)
  · intro id n kids hn hkids hchildren rest found
    have hplaces : ∀ kid ∈ kids.toList, ∀ rest found, Walk.Turns nodes ⟨kid :: rest, found⟩
        ⟨rest, found ++ leavesBelow nodes kid⟩ := by
      intro kid hkid
      obtain ⟨q, rfl⟩ := Quadrants.mem_toList.mp hkid
      obtain ⟨c, -, -, hbelow⟩ := hchildren q
      exact hbelow
    have hleaves : leavesBelow nodes id = kids.toList.flatMap (leavesBelow nodes) := by
      rw [h.leavesBelow_branch hn hkids, Quadrants.toList_eq_map_get, List.flatMap_map]
    rw [hleaves]
    exact (Walk.turns_flatMap hplaces rest found).head (Walk.Turn.branch hn hkids)

/-- The leaves of a node stand next to each other among those of every node above it. -/
theorem Growth.leavesBelow_infix_of_above
    (h : Growth points splitThreshold limit root nodes waiting) {i j : Nat}
    (habove : Above nodes i j) : leavesBelow nodes j <:+: leavesBelow nodes i := by
  induction habove with
  | refl => exact List.infix_rfl
  | tail _ hlink ih =>
      obtain ⟨q, hlink⟩ := hlink
      exact (h.leavesBelow_infix_of_linked hlink).trans ih

/-- **A node leads to the leaves whose paths begin with its own**, and to no others. -/
theorem Growth.mem_leavesBelow_iff (h : Growth points splitThreshold limit root nodes waiting)
    (hroot : root.key = Key.root) {id : Nat} {n : Node} (hn : nodes[id]? = some n) {j : Nat} :
    j ∈ leavesBelow nodes id ↔
      ∃ leaf, nodes[j]? = some leaf ∧ leaf.children = none ∧ n.key.path <+: leaf.key.path := by
  refine ⟨h.leaf_of_mem_leavesBelow hn, ?_⟩
  rintro ⟨leaf, hleaf, hchildless, hstart⟩
  apply (h.leavesBelow_infix_of_above (h.above_of_prefix hroot hn hleaf hstart)).subset
  rw [leavesBelow_leaf hleaf hchildless]
  exact List.mem_singleton_self j

/-- **Leaves are found in the order of their codes.** -/
theorem Growth.pairwise_before (h : Growth points splitThreshold limit root nodes waiting)
    {id : Nat} {n : Node} (hn : nodes[id]? = some n) :
    ((leavesBelow nodes id).filterMap (nodes[·]?)).Pairwise fun a b =>
      CodeBefore a.key.code b.key.code := by
  refine h.leaf_induction (P := fun id _ => ((leavesBelow nodes id).filterMap (nodes[·]?)).Pairwise
    fun a b => CodeBefore a.key.code b.key.code) ?_ ?_ hn
  · intro id n hn hleaf
    rw [leavesBelow_leaf hn hleaf, List.filterMap_cons_some hn]
    exact List.pairwise_singleton _ _
  · intro id n kids hn hkids hchildren
    rw [h.leavesBelow_branch hn hkids, List.filterMap_flatMap, List.pairwise_flatMap]
    refine ⟨?_, ?_⟩
    · intro q hq
      obtain ⟨c, -, -, hordered⟩ := hchildren q
      exact hordered
    · -- Two leaves of different quadrants part at the step below this node.
      have hstep : ∀ q, ∀ leaf ∈ (leavesBelow nodes (kids.get q)).filterMap (nodes[·]?),
          n.key.path ++ [q] <+: leaf.key.path := by
        intro q leaf hmem
        obtain ⟨c, hc, hchild, -⟩ := hchildren q
        obtain ⟨j, hj, hget⟩ := List.mem_filterMap.mp hmem
        obtain ⟨leaf', hleaf', -, hstart⟩ := h.leaf_of_mem_leavesBelow hc hj
        rw [hget, Option.some.injEq] at hleaf'
        subst hleaf'
        have hpath : c.key.path = n.key.path ++ [q] := Key.path_child (Node.childIn_parts hchild).1
        rwa [hpath] at hstart
      refine Quadrant.pairwise_digit_all.imp fun hdigits => ?_
      intro a ha b hb
      exact Key.codeBefore_of_prefix hdigits (hstep _ a ha) (hstep _ b hb)

end

namespace Tree

/-- How the leaves that a node leads to are found, which they are, and in which order. -/
structure Traversed (t : Tree α) : Prop where
  /-- The walk from a node comes to one end, where it has found these leaves in this order. -/
  walk : ∀ {id : Nat} {n : Node}, t.node? id = some n → ∃ places,
    (∀ found, Walk.Turns t.nodes ⟨[id], []⟩ ⟨[], found⟩ ↔ found = places) ∧
      List.Forall₂ (fun place leaf => t.node? place = some leaf) places (t.leavesFrom id)
  mem_iff : ∀ {id : Nat} {n : Node}, t.node? id = some n → ∀ leaf, leaf ∈ t.leavesFrom id ↔
    leaf.isLeaf = true ∧ (∃ place, t.node? place = some leaf) ∧
      n.key.code.toList <+: leaf.key.code.toList
  once : ∀ id : Nat, (t.leavesFrom id).Nodup
  increasing : ∀ id : Nat, (t.leavesFrom id).Pairwise fun a b => CodeBefore a.key.code b.key.code
  block : ∀ id : Nat, t.leavesFrom id <:+: t.leaves
  outside : ∀ {id : Nat}, t.node? id = none → t.leavesFrom id = []

/-- No leaves are found from a place without a node. -/
theorem leavesFrom_of_outside {t : Tree α} {id : Nat} (hid : t.node? id = none) :
    t.leavesFrom id = [] := by
  have hnone : t.nodes[id]? = none := hid
  rw [leavesFrom, leavesBelow, hnone]
  rfl

/-- Dropping what has no value keeps the values at their places if nothing has to be dropped. -/
theorem forall₂_filterMap {β γ : Type} {f : β → Option γ} {l : List β}
    (h : ∀ b ∈ l, ∃ c, f b = some c) :
    List.Forall₂ (fun b c => f b = some c) l (l.filterMap f) := by
  induction l with
  | nil => exact List.Forall₂.nil
  | cons b l ih =>
      obtain ⟨c, hc⟩ := h b List.mem_cons_self
      rw [List.filterMap_cons_some hc]
      exact List.Forall₂.cons hc (ih fun b hb => h b (List.mem_cons_of_mem _ hb))

/-- **The leaves of every node, in order.**  The walk from a node finds the leaves whose codes begin
with its own, each once, in the order of codes, and next to each other in the list of all leaves. -/
theorem traversed_of_reachable {t : Tree α} (h : t.Reachable) : t.Traversed := by
  obtain ⟨waiting, hgrowth⟩ := (Sound.of_reachable h).growth
  have hincreasing : ∀ id : Nat,
      (t.leavesFrom id).Pairwise fun a b => CodeBefore a.key.code b.key.code := by
    intro id
    cases hid : t.node? id with
    | none => rw [leavesFrom_of_outside hid]; exact List.Pairwise.nil
    | some n => exact hgrowth.pairwise_before hid
  refine
    { walk := ?_
      mem_iff := ?_
      once := ?_
      increasing := hincreasing
      block := ?_
      outside := leavesFrom_of_outside }
  · intro id n hn
    have hwalk := hgrowth.turns_leavesBelow hn [] []
    refine ⟨leavesBelow t.nodes id, fun found => ⟨fun hfound => ?_, ?_⟩, forall₂_filterMap ?_⟩
    · have hend := eq_of_stuck (Walk.Turn.rightUnique t.nodes) hfound hwalk Walk.Turn.not_of_nil
        Walk.Turn.not_of_nil
      exact (Walk.mk.inj hend).2
    · rintro rfl
      exact hwalk
    · intro place hplace
      obtain ⟨leaf, hleaf, -⟩ := hgrowth.leaf_of_mem_leavesBelow hn hplace
      exact ⟨leaf, hleaf⟩
  · intro id n hn leaf
    rw [leaf.key.toList_code, Key.code_prefix_iff, Node.isLeaf, Option.isNone_iff_eq_none]
    constructor
    · intro hmem
      obtain ⟨place, hplace, hget⟩ := List.mem_filterMap.mp hmem
      obtain ⟨leaf', hleaf', hbelow⟩ := (hgrowth.mem_leavesBelow_iff rfl hn).mp hplace
      rw [hget, Option.some.injEq] at hleaf'
      subst hleaf'
      exact ⟨hbelow.1, ⟨place, hget⟩, hbelow.2⟩
    · rintro ⟨hchildless, ⟨place, hget⟩, hstart⟩
      have hplace := (hgrowth.mem_leavesBelow_iff rfl hn).mpr ⟨leaf, hget, hchildless, hstart⟩
      exact List.mem_filterMap.mpr ⟨place, hplace, hget⟩
  · intro id
    refine (hincreasing id).imp fun {a b} hbefore heq => ?_
    rw [heq] at hbefore
    exact CodeBefore.irrefl _ hbefore
  · intro id
    cases hid : t.node? id with
    | none => rw [leavesFrom_of_outside hid]; exact List.nil_infix
    | some n => exact (hgrowth.leavesBelow_infix_root rfl hid).filterMap _

/-- The leaves of the nodes of the small tree, subdivided. -/
theorem traversed_crossing :
    let t := crossing.afterAll [.subdivide]
    t.Reachable ∧ t.isSubdivided = true ∧ t.Traversed := by
  have hreachable := reachable_crossing.afterAll [.subdivide]
  exact ⟨hreachable, isSubdivided_crossing, traversed_of_reachable hreachable⟩

end Tree

end QuadCode
