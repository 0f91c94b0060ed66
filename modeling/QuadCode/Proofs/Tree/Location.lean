import QuadCode.Proofs.Tree.Contents

/-!
# The leaf that comes last

Several leaves may hold the same point, and they are listed quadrant by quadrant.  The quadrant that
a location belongs to when mid lines are counted to the upper halves is the last one that contains
it.  So the leaf that a location leads to from a node is the last of the node's leaves that hold
a point there: it lies in the last quadrant that contains the point, the leaves in front of that
quadrant do not matter, and those behind it do not hold the point.

Main statements:

* `Rect.isLast_quadrantOf`: a location belongs to the last quadrant that contains it;
* `Growth.isLast_descend`: a point leads to the last leaf that holds it.
-/

namespace QuadCode

/-- A member of a list with a property that no member behind it has. -/
def IsLast {β : Type} (P : β → Prop) (xs : List β) (x : β) : Prop :=
  ∃ front back, xs = front ++ x :: back ∧ P x ∧ ∀ y ∈ back, ¬ P y

namespace IsLast

variable {β γ : Type} {P : β → Prop} {Q : γ → Prop} {xs : List β} {x : β} {y : γ}

theorem holds (h : IsLast P xs x) : P x := by
  obtain ⟨-, -, -, hx, -⟩ := h
  exact hx

theorem mem (h : IsLast P xs x) : x ∈ xs := by
  obtain ⟨front, back, rfl, -, -⟩ := h
  exact List.mem_append_right _ List.mem_cons_self

theorem flatMap {f : β → List γ} (h : IsLast P xs x) (hlast : IsLast Q (f x) y)
    (hnone : ∀ x', ¬ P x' → ∀ y' ∈ f x', ¬ Q y') : IsLast Q (xs.flatMap f) y := by
  obtain ⟨front, back, rfl, -, hback⟩ := h
  obtain ⟨front', back', hsplit, hy, hback'⟩ := hlast
  refine ⟨front.flatMap f ++ front', back' ++ back.flatMap f, by simp [hsplit], hy, ?_⟩
  intro y' hy'
  rcases List.mem_append.mp hy' with hy' | hy'
  · exact hback' y' hy'
  · obtain ⟨x', hx', hy'⟩ := List.mem_flatMap.mp hy'
    exact hnone x' (hback x' hx') y' hy'

theorem filterMap {f : β → Option γ} (h : IsLast P xs x) (hx : f x = some y)
    (hiff : ∀ x' y', f x' = some y' → (P x' ↔ Q y')) : IsLast Q (xs.filterMap f) y := by
  obtain ⟨front, back, rfl, hpx, hback⟩ := h
  refine ⟨front.filterMap f, back.filterMap f, by simp [hx], (hiff x y hx).mp hpx, ?_⟩
  intro y' hy' hq
  obtain ⟨x', hx', hfx'⟩ := List.mem_filterMap.mp hy'
  exact hback x' hx' ((hiff x' y' hfx').mpr hq)

theorem filter {p : β → Bool} (h : IsLast P xs x) (hx : p x = true) :
    IsLast P (xs.filter p) x := by
  obtain ⟨front, back, rfl, hpx, hback⟩ := h
  refine ⟨front.filter p, back.filter p, by simp [hx], hpx, ?_⟩
  intro y hy
  exact hback y (List.mem_filter.mp hy).1

end IsLast

/-- Of the members of a list with some property, one comes last. -/
theorem exists_isLast {β : Type} {P : β → Prop} {xs : List β} (h : ∃ x ∈ xs, P x) :
    ∃ x, IsLast P xs x := by
  induction xs with
  | nil =>
      obtain ⟨x, hx, -⟩ := h
      cases hx
  | cons y rest ih =>
      by_cases hrest : ∃ x ∈ rest, P x
      · obtain ⟨x, front, back, rfl, hx, hback⟩ := ih hrest
        exact ⟨x, y :: front, back, rfl, hx, hback⟩
      · obtain ⟨x, hx, hholds⟩ := h
        rcases List.mem_cons.mp hx with rfl | hx
        · exact ⟨x, [], rest, rfl, hholds, fun z hz hP => hrest ⟨z, hz, hP⟩⟩
        · exact absurd ⟨x, hx, hholds⟩ hrest

/-- A location belongs to the last quadrant that contains it, the quadrants in visiting order. -/
theorem Rect.isLast_quadrantOf {r : Rect} (hr : r.Proper) {l : Location}
    (hl : r.contains l = true) :
    IsLast (fun q => (r.quadrant q).contains l = true) Quadrant.all (r.quadrantOf l) := by
  have hbottomRight : (r.quadrant .bottomRight).contains l = true → r.midX ≤ l.x :=
    fun h => (contains_iff.mp h).1
  have htopRight : (r.quadrant .topRight).contains l = true → r.midX ≤ l.x ∧ r.midY ≤ l.y :=
    fun h => ⟨(contains_iff.mp h).1, (contains_iff.mp h).2.2.1⟩
  have htopLeft : (r.quadrant .topLeft).contains l = true → r.midY ≤ l.y :=
    fun h => (contains_iff.mp h).2.2.1
  have hin := hr.contains_quadrantOf hl
  unfold quadrantOf at hin ⊢
  by_cases hright : r.midX ≤ l.x <;> by_cases htop : r.midY ≤ l.y
  · rw [if_pos hright, if_pos htop] at hin ⊢
    exact ⟨[.bottomLeft, .topLeft, .bottomRight], [], rfl, hin, by simp⟩
  · rw [if_pos hright, if_neg htop] at hin ⊢
    exact ⟨[.bottomLeft, .topLeft], [.topRight], rfl, hin, by grind⟩
  · rw [if_neg hright, if_pos htop] at hin ⊢
    exact ⟨[.bottomLeft], [.bottomRight, .topRight], rfl, hin, by grind⟩
  · rw [if_neg hright, if_neg htop] at hin ⊢
    exact ⟨[], [.topLeft, .bottomRight, .topRight], rfl, hin, by grind⟩

section

open Subdivision

variable {α : Type} {points : Array (Point α)} {splitThreshold limit : Nat} {root : Node}
  {nodes : Array Node} {waiting : List Nat}

theorem descend_leaf {l : Location} {id : Nat} {n : Node} (hn : nodes[id]? = some n)
    (hleaf : n.children = none) : descend nodes l id = some n := by
  rw [descend, hn]
  simp only [hleaf]

/-- From a node with children, a location leads on to the quadrant that it belongs to. -/
theorem Growth.descend_branch (h : Growth points splitThreshold limit root nodes waiting)
    (l : Location) {id : Nat} {n : Node} {kids : Quadrants Nat} (hn : nodes[id]? = some n)
    (hkids : n.children = some kids) :
    descend nodes l id = descend nodes l (kids.get (n.rect.quadrantOf l)) := by
  have hlt := h.lt_of_linked ⟨n, kids, hn, hkids, rfl⟩ (q := n.rect.quadrantOf l)
  rw [descend, hn]
  simp only [hkids]
  rw [dif_pos hlt]

/-- Whether the node at a place holds a point. -/
def HoldsAt (nodes : Array Node) (i : Nat) (id : Nat) : Prop :=
  ∃ n, nodes[id]? = some n ∧ i ∈ n.points

/-- A node holds whatever one of its leaves holds. -/
theorem Growth.holdsAt_of_leaf (h : Growth points splitThreshold limit root nodes waiting)
    {i id : Nat} {n : Node} (hn : nodes[id]? = some n) :
    ∀ j ∈ leavesBelow nodes id, HoldsAt nodes i j → i ∈ n.points := by
  refine h.leaf_induction
    (P := fun id n => ∀ j ∈ leavesBelow nodes id, HoldsAt nodes i j → i ∈ n.points) ?_ ?_ hn
  · intro id n hn hleaf j hj hholds
    rw [leavesBelow_leaf hn hleaf, List.mem_singleton] at hj
    obtain ⟨m, hm, hi⟩ := hholds
    rw [hj, hn, Option.some.injEq] at hm
    rwa [hm]
  · intro id n kids hn hkids hchildren j hj hholds
    rw [h.leavesBelow_branch hn hkids] at hj
    obtain ⟨q, -, hj⟩ := List.mem_flatMap.mp hj
    obtain ⟨c, -, hc, hbelow⟩ := hchildren q
    exact ((Node.mem_points_of_childIn hc).mp (hbelow j hj hholds)).1

/-- **A point leads to the last leaf that holds it.**  Of the leaves of a node that hold a point,
the one that the point's location leads to comes last. -/
theorem Growth.isLast_descend (h : Growth points splitThreshold limit root nodes waiting)
    (hproper : root.rect.Proper) (hroot : root.Exact points) {i : Nat} {p : Point α}
    (hp : points[i]? = some p) {id : Nat} {n : Node} (hn : nodes[id]? = some n)
    (hi : i ∈ n.points) :
    ∃ j leaf, nodes[j]? = some leaf ∧ leaf.children = none ∧
      descend nodes p.toLocation id = some leaf ∧
      IsLast (HoldsAt nodes i) (leavesBelow nodes id) j := by
  refine h.leaf_induction (P := fun id n => i ∈ n.points → ∃ j leaf, nodes[j]? = some leaf ∧
    leaf.children = none ∧ descend nodes p.toLocation id = some leaf ∧
      IsLast (HoldsAt nodes i) (leavesBelow nodes id) j) ?_ ?_ hn hi
  · intro id n hn hleaf hi
    refine ⟨id, n, hn, hleaf, descend_leaf hn hleaf, [], [], ?_, ⟨n, hn, hi⟩, by simp⟩
    rw [leavesBelow_leaf hn hleaf]
    rfl
  · intro id n kids hn hkids hchildren hi
    obtain ⟨hrect, hexact⟩ := h.exact hproper hroot hn
    have hin : n.rect.contains p.toLocation = true := by
      obtain ⟨p', hp', hin⟩ := (hexact.mem_iff i).mp hi
      rw [hp, Option.some.injEq] at hp'
      rwa [hp']
    -- A child holds the point exactly if its quadrant contains it.
    have hheld : ∀ {q : Quadrant} {c : Node}, n.childIn points q = .ok c.bare →
        (i ∈ c.points ↔ (n.rect.quadrant q).contains p.toLocation = true) := by
      intro q c hc
      rw [Node.mem_points_of_childIn hc, hp]
      simp [hi]
    obtain ⟨c, hc, hchild, hbelow⟩ := hchildren (n.rect.quadrantOf p.toLocation)
    obtain ⟨j, leaf, hleaf, hchildless, hdescend, hlast⟩ :=
      hbelow ((hheld hchild).mpr (hrect.contains_quadrantOf hin))
    refine ⟨j, leaf, hleaf, hchildless, ?_, ?_⟩
    · rw [h.descend_branch p.toLocation hn hkids, hdescend]
    · rw [h.leavesBelow_branch hn hkids]
      apply (Rect.isLast_quadrantOf hrect hin).flatMap hlast
      intro q hq j hj hholds
      obtain ⟨c, hc, hchild, -⟩ := hchildren q
      exact hq ((hheld hchild).mp (h.holdsAt_of_leaf hc j hj hholds))

end

end QuadCode
