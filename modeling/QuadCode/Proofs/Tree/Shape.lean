import Mathlib.Logic.ExistsUnique
import QuadCode.Proofs.Tree.Histories
import QuadCode.Tree.Query

/-!
# The shape of the node array

`WellShaped` is what can be said of the node array of a tree without speaking of how it grew.  The
first node is the root and covers the region; children come in fours, at places in a row behind
their parent; the links make a tree, since each place but the first is linked to exactly once; a
child has the key and the rectangle of its quadrant; and nodes refer only to points that exist.

Main statements:

* `Growth.wellShaped`: an array that has grown from an undivided region is well shaped, also if
  places still wait;
* `wellShaped_of_reachable`: every history leaves a well-shaped array, and an index that refers only
  to points that exist.
-/

namespace QuadCode

open Subdivision

variable {α : Type}

/-- The shape of a node array over a square region, for a given number of points. -/
structure WellShaped (side : Float) (count : Nat) (nodes : Array Node) : Prop where
  root : ∃ n, nodes[0]? = some n ∧ n.key = Key.root ∧ n.rect = ⟨0.0, 0.0, side, side⟩
  kids : ∀ {id : Nat} {n : Node} {kids : Quadrants Nat}, nodes[id]? = some n →
    n.children = some kids →
      ∃ place, kids = ⟨place, place + 1, place + 2, place + 3⟩ ∧ id < place ∧
        place + 3 < nodes.size
  parent : ∀ {id : Nat}, 0 < id → id < nodes.size →
    ∃! link : Nat × Quadrant, Linked nodes link.1 link.2 id
  child : ∀ {p c : Nat} {q : Quadrant} {m n : Node}, Linked nodes p q c → nodes[p]? = some m →
    nodes[c]? = some n → m.key.child q = .ok n.key ∧ n.rect = m.rect.quadrants.get q
  held : ∀ {id : Nat} {n : Node}, nodes[id]? = some n → ∀ i ∈ n.points, i < count
  size_eq : nodes.size = 1 + 4 * branchCount nodes

/-- A linked child is what a split of its parent gives. -/
theorem Growth.childIn_of_linked {points : Array (Point α)} {splitThreshold limit : Nat}
    {root : Node} {nodes : Array Node} {waiting : List Nat}
    (h : Growth points splitThreshold limit root nodes waiting) {p c : Nat} {q : Quadrant}
    {m n : Node} (hlink : Linked nodes p q c) (hm : nodes[p]? = some m) (hn : nodes[c]? = some n) :
    m.childIn points q = .ok n.bare := by
  obtain ⟨kids, hkids, rfl⟩ := hlink.children hm
  obtain ⟨c, hc, hchild⟩ := h.child hm hkids q
  rw [hn, Option.some.injEq] at hc
  rwa [hc]

/-- A node holds only points that its tree has. -/
theorem Growth.held {points : Array (Point α)} {splitThreshold limit : Nat} {root : Node}
    {nodes : Array Node} {waiting : List Nat}
    (h : Growth points splitThreshold limit root nodes waiting)
    (hroot : ∀ i ∈ root.points, i < points.size) {id : Nat} {n : Node}
    (hn : nodes[id]? = some n) : ∀ i ∈ n.points, i < points.size := by
  refine h.node_induction (P := fun n => ∀ i ∈ n.points, i < points.size) hroot ?_ hn
  intro n c q hold hchild i hi
  rw [(Node.childIn_parts hchild).2.2.1, Node.pointsIn] at hi
  exact hold i (Array.mem_filter.mp hi).1

/-- An array that has grown from the undivided region of a tree is well shaped. -/
theorem Growth.wellShaped {t : Tree α} {splitThreshold limit : Nat} {nodes : Array Node}
    {waiting : List Nat} (h : Growth t.points splitThreshold limit t.undivided nodes waiting) :
    WellShaped t.settings.rectSize t.points.size nodes := by
  refine
    { root := ?_
      kids := ?_
      parent := ?_
      child := ?_
      held := h.held (by simp [Tree.undivided, Node.leaf])
      size_eq := h.size_eq }
  · obtain ⟨n, hn, hbare⟩ := h.first
    exact ⟨n, hn, congrArg Node.key hbare, congrArg Node.rect hbare⟩
  · intro id n kids hn hkids
    obtain ⟨place, rfl, hlt, hle⟩ := h.placed hn hkids
    exact ⟨place, rfl, hlt, hle⟩
  · intro id hpos hlt
    obtain ⟨p, q, hlink⟩ := h.parent hpos hlt
    refine ⟨(p, q), hlink, ?_⟩
    intro link hlink'
    obtain ⟨p', q'⟩ := link
    obtain ⟨rfl, rfl⟩ := h.unique hlink hlink'
    rfl
  · intro p c q m n hlink hm hn
    obtain ⟨hkey, hrect, -, -⟩ := Node.childIn_parts (h.childIn_of_linked hlink hm hn)
    exact ⟨hkey, by rw [Rect.quadrants, Quadrants.get_ofFn]; exact hrect⟩

namespace Tree

/-- A leaf that a node leads to is one of the nodes. -/
theorem exists_place_of_mem_leavesFrom {t : Tree α} {id : Nat} {leaf : Node}
    (h : leaf ∈ t.leavesFrom id) : ∃ j : Nat, t.nodes[j]? = some leaf := by
  obtain ⟨j, -, hj⟩ := List.mem_filterMap.mp h
  exact ⟨j, hj⟩

/-- An entry of an index comes from one of the leaves that were put in, unless it was there. -/
theorem mem_of_getElem?_foldl_insert {leaves : List Node} {found : LeafIndex} {code : String}
    {held : Array Nat}
    (h : (leaves.foldl (fun found leaf => found.insert leaf.key.code leaf.points) found)[code]? =
      some held) :
    found[code]? = some held ∨ ∃ leaf ∈ leaves, leaf.key.code = code ∧ leaf.points = held := by
  induction leaves generalizing found with
  | nil => exact Or.inl h
  | cons leaf rest ih =>
      rcases ih h with hold | ⟨leaf', hmem, hleaf'⟩
      · rw [Std.ExtTreeMap.getElem?_insert] at hold
        split at hold
        · rename_i hcode
          exact Or.inr ⟨leaf, List.mem_cons_self, Std.LawfulEqCmp.eq_of_compare hcode,
            Option.some.inj hold⟩
        · exact Or.inl hold
      · exact Or.inr ⟨leaf', List.mem_cons_of_mem _ hmem, hleaf'⟩

/-- An entry of the index is the point list of a leaf. -/
theorem exists_leaf_of_index {t : Tree α} {code : String} {held : Array Nat}
    (h : t.index[code]? = some held) : ∃ leaf ∈ t.leaves, leaf.key.code = code ∧
      leaf.points = held := by
  unfold index at h
  split at h
  · rcases mem_of_getElem?_foldl_insert h with hnone | ⟨leaf, hmem, hleaf⟩
    · simp at hnone
    · exact ⟨leaf, (List.mem_filter.mp hmem).1, hleaf⟩
  · simp at h

/-- **The shape of every tree.**  Whatever succeeds and fails in the history of a tree, its node
array is well shaped, and its index refers only to points that it has. -/
theorem wellShaped_of_reachable {t : Tree α} (h : t.Reachable) :
    WellShaped t.settings.rectSize t.points.size t.nodes ∧
      ∀ (code : String) (held : Array Nat), t.index[code]? = some held →
        ∀ i ∈ held, i < t.points.size := by
  obtain ⟨waiting, hgrowth⟩ := (Sound.of_reachable h).growth
  have hshape := hgrowth.wellShaped
  refine ⟨hshape, ?_⟩
  intro code held hheld i hi
  obtain ⟨leaf, hleaf, -, rfl⟩ := exists_leaf_of_index hheld
  obtain ⟨j, hj⟩ := exists_place_of_mem_leavesFrom hleaf
  exact hshape.held hj i hi

/-- The shape of a subdivided tree that has refused another point and another subdivision. -/
theorem wellShaped_crossing :
    let t := crossing.afterAll [.subdivide, .add ⟨⟨0.1, 0.1⟩, 3⟩, .subdivide]
    t.Reachable ∧ t.isSubdivided = true ∧
      WellShaped t.settings.rectSize t.points.size t.nodes ∧
        ∀ (code : String) (held : Array Nat), t.index[code]? = some held →
          ∀ i ∈ held, i < t.points.size := by
  have hreachable :=
    reachable_crossing.afterAll [.subdivide, .add ⟨⟨0.1, 0.1⟩, 3⟩, .subdivide]
  have hdone := (Sound.of_reachable reachable_crossing).isSubdivided_afterAll
    [.subdivide, .add ⟨⟨0.1, 0.1⟩, 3⟩]
  exact ⟨hreachable, hdone, wellShaped_of_reachable hreachable⟩

end Tree

end QuadCode
