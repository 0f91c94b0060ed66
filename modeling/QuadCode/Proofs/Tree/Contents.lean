import QuadCode.Proofs.Geometry.Cells
import QuadCode.Proofs.Tree.Histories
import QuadCode.Tree.Query

/-!
# What nodes hold

A node gets its points from its parent, by leaving out those that its own rectangle does not
contain.  Since the quadrants of a cell lie within it, no point of the tree is left out wrongly on
the way down, and every node holds all points of the tree that its rectangle contains.  Since the
quadrants leave nothing out, no point gets lost either: whatever a node holds is still held by a
leaf that it leads to.

Main statements:

* `Growth.exact`: every node holds exactly what its rectangle contains, in order;
* `Growth.exists_leaf`: what a node holds is held by one of its leaves;
* `complete_of_subdivide`: both for every tree that is subdivided.
-/

namespace QuadCode

open Subdivision

variable {α : Type}

/-- If payloads tell the points apart, a payload has one position only. -/
theorem position_unique {points : Array (Point α)}
    (hdistinct : (points.toList.map Point.data).Nodup) {i j : Nat} {p q : Point α}
    (hp : points[i]? = some p) (hq : points[j]? = some q) (hdata : p.data = q.data) : i = j := by
  have hi : (points.toList.map Point.data)[i]? = some p.data := by simp [hp]
  have hj : (points.toList.map Point.data)[j]? = some q.data := by simp [hq]
  obtain ⟨hlt, -⟩ := List.getElem?_eq_some_iff.mp hi
  exact (List.getElem?_inj hlt hdistinct).mp (by rw [hi, hj, hdata])

/-- A node holds all points that its rectangle contains and no others, in order. -/
structure Node.Exact (points : Array (Point α)) (n : Node) : Prop where
  increasing : n.points.toList.Pairwise (· < ·)
  mem_iff : ∀ i, i ∈ n.points ↔ ∃ p, points[i]? = some p ∧ n.rect.contains p.toLocation = true

namespace Node

variable {points : Array (Point α)} {n c : Node} {q : Quadrant}

theorem mem_pointsIn {rect : Rect} {i : Nat} :
    i ∈ n.pointsIn points rect ↔
      i ∈ n.points ∧ ∃ p, points[i]? = some p ∧ rect.contains p.toLocation = true := by
  rw [pointsIn, Array.mem_filter]
  cases points[i]? with
  | none => simp
  | some p => simp

/-- A child holds those of the node's points that its quadrant contains. -/
theorem mem_points_of_childIn (hc : n.childIn points q = .ok c.bare) {i : Nat} :
    i ∈ c.points ↔
      i ∈ n.points ∧ ∃ p, points[i]? = some p ∧ (n.rect.quadrant q).contains p.toLocation = true := by
  have hpoints : c.points = n.pointsIn points (n.rect.quadrant q) := (childIn_parts hc).2.2.1
  rw [hpoints, mem_pointsIn]

/-- A child of a node that holds what its rectangle contains holds what its own contains. -/
theorem Exact.childIn (h : n.Exact points) (hproper : n.rect.Proper)
    (hc : n.childIn points q = .ok c) : c.Exact points := by
  obtain ⟨-, hrect, hpoints, -⟩ := childIn_parts hc
  constructor
  · rw [hpoints, pointsIn, Array.toList_filter]
    exact h.increasing.filter _
  · intro i
    rw [hpoints, mem_pointsIn, h.mem_iff, hrect]
    constructor
    · intro h
      exact h.2
    · intro hcontains
      obtain ⟨p, hp, hin⟩ := hcontains
      exact ⟨⟨p, hp, hproper.contains_of_quadrant hin⟩, p, hp, hin⟩

end Node

section

variable {points : Array (Point α)} {splitThreshold limit : Nat} {root : Node} {nodes : Array Node}
  {waiting : List Nat}

/-- Every node holds exactly what its rectangle contains, if the root does. -/
theorem Growth.exact (h : Growth points splitThreshold limit root nodes waiting)
    (hproper : root.rect.Proper) (hroot : root.Exact points) {id : Nat} {n : Node}
    (hn : nodes[id]? = some n) : n.rect.Proper ∧ n.Exact points := by
  have hbare : n.bare.rect.Proper ∧ n.bare.Exact points := by
    refine h.node_induction (P := fun n => n.rect.Proper ∧ n.Exact points) ⟨hproper, hroot⟩ ?_ hn
    intro n c q hn hc
    obtain ⟨hrect, hexact⟩ := hn
    refine ⟨?_, hexact.childIn hrect hc⟩
    rw [(Node.childIn_parts hc).2.1]
    exact hrect.quadrant q
  exact ⟨hbare.1, hbare.2.increasing, hbare.2.mem_iff⟩

theorem leavesBelow_leaf {id : Nat} {n : Node} (hn : nodes[id]? = some n)
    (hleaf : n.children = none) : leavesBelow nodes id = [id] := by
  rw [leavesBelow, hn]
  simp only [hleaf]

/-- A node with children leads to the leaves of its children, quadrant by quadrant. -/
theorem Growth.leavesBelow_branch (h : Growth points splitThreshold limit root nodes waiting)
    {id : Nat} {n : Node} {kids : Quadrants Nat} (hn : nodes[id]? = some n)
    (hkids : n.children = some kids) :
    leavesBelow nodes id = Quadrant.all.flatMap fun q => leavesBelow nodes (kids.get q) := by
  have hlt (q : Quadrant) : id < kids.get q ∧ kids.get q < nodes.size :=
    h.lt_of_linked ⟨n, kids, hn, hkids, rfl⟩
  rw [leavesBelow, hn]
  simp only [hkids]
  rw [Quadrants.toList_eq_map_get, List.flatMap_map]
  apply List.flatMap_congr
  intro q hq
  rw [dif_pos (hlt q)]

/-- What a node holds is held by one of the leaves that it leads to. -/
theorem Growth.exists_leaf (h : Growth points splitThreshold limit root nodes waiting)
    (hproper : root.rect.Proper) (hroot : root.Exact points) {i : Nat} {id : Nat} {n : Node}
    (hn : nodes[id]? = some n) (hi : i ∈ n.points) :
    ∃ j ∈ leavesBelow nodes id, ∃ leaf, nodes[j]? = some leaf ∧ leaf.children = none ∧
      i ∈ leaf.points := by
  refine h.leaf_induction (P := fun id n => i ∈ n.points → ∃ j ∈ leavesBelow nodes id,
    ∃ leaf, nodes[j]? = some leaf ∧ leaf.children = none ∧ i ∈ leaf.points) ?_ ?_ hn hi
  · intro id n hn hleaf hi
    rw [leavesBelow_leaf hn hleaf]
    exact ⟨id, List.mem_singleton.mpr rfl, n, hn, hleaf, hi⟩
  · intro id n kids hn hkids hchildren hi
    obtain ⟨hrect, hexact⟩ := h.exact hproper hroot hn
    obtain ⟨p, hp, hin⟩ := (hexact.mem_iff i).mp hi
    obtain ⟨c, -, hc, hbelow⟩ := hchildren (n.rect.quadrantOf p.toLocation)
    have hmem : i ∈ c.points :=
      (Node.mem_points_of_childIn hc).mpr ⟨hi, p, hp, hrect.contains_quadrantOf hin⟩
    obtain ⟨j, hj, hleaf⟩ := hbelow hmem
    rw [h.leavesBelow_branch hn hkids]
    exact ⟨j, List.mem_flatMap.mpr ⟨_, Quadrant.mem_all _, hj⟩, hleaf⟩

end

/-- The region of valid settings is a proper cell. -/
theorem Settings.proper_of_valid {s : Settings} (h : s.validate = .ok ()) :
    (Rect.square s.rectSize).Proper := by
  obtain ⟨hfin, hpos, -⟩ := Settings.parts_of_valid h
  exact Rect.proper_square hfin hpos

namespace Tree

theorem Sound.proper_undivided {t : Tree α} (h : t.Sound) : t.undivided.rect.Proper :=
  Settings.proper_of_valid h.valid

/-- The undivided region holds all points, since it contains every point that was admitted. -/
theorem Sound.exact_undivided {t : Tree α} (h : t.Sound) : t.undivided.Exact t.points := by
  constructor
  · rw [undivided, Node.leaf, Array.toList_range]
    exact List.pairwise_lt_range
  · intro i
    rw [undivided, Node.leaf, Array.mem_range]
    constructor
    · intro hlt
      have hadmits := h.admitted t.points[i] (Array.getElem_mem hlt)
      rw [admits, Bool.and_eq_true] at hadmits
      exact ⟨t.points[i], Array.getElem?_eq_getElem hlt, hadmits.2⟩
    · intro hcontains
      obtain ⟨p, hp, -⟩ := hcontains
      exact (Array.getElem?_eq_some_iff.mp hp).1

/-- What nodes and leaves hold in a tree. -/
structure Complete (t : Tree α) : Prop where
  exact : ∀ {id : Nat} {n : Node}, t.node? id = some n → n.Exact t.points
  reached : ∀ {id : Nat} {n : Node}, t.node? id = some n → ∀ i ∈ n.points,
    ∃ leaf ∈ t.leavesFrom id, leaf.isLeaf = true ∧ i ∈ leaf.points
  held : ∀ i < t.points.size, ∃ leaf ∈ t.leaves, i ∈ leaf.points

/-- A sound tree is complete at every stage. -/
theorem Sound.complete {t : Tree α} (h : t.Sound) : t.Complete := by
  obtain ⟨waiting, hgrowth⟩ := h.growth
  have hreached : ∀ {id : Nat} {n : Node}, t.node? id = some n → ∀ i ∈ n.points,
      ∃ leaf ∈ t.leavesFrom id, leaf.isLeaf = true ∧ i ∈ leaf.points := by
    intro id n hn i hi
    obtain ⟨j, hj, leaf, hleaf, hchildless, hmem⟩ :=
      hgrowth.exists_leaf h.proper_undivided h.exact_undivided hn hi
    exact ⟨leaf, List.mem_filterMap.mpr ⟨j, hj, hleaf⟩, Node.isLeaf_iff.mpr hchildless, hmem⟩
  refine { exact := ?_, reached := hreached, held := ?_ }
  · intro id n hn
    exact (hgrowth.exact h.proper_undivided h.exact_undivided hn).2
  · intro i hi
    obtain ⟨root, hroot, hbare⟩ := hgrowth.first
    have hmem : i ∈ root.bare.points := by
      rw [hbare]
      exact Array.mem_range.mpr hi
    obtain ⟨leaf, hleaf, -, hheld⟩ := hreached hroot i hmem
    exact ⟨leaf, hleaf, hheld⟩

/-- **No point is lost.**  Subdividing a tree succeeds and keeps its points.  Every node then holds,
in order, all points of the tree that its rectangle contains with its boundary; what a node holds is
held by a leaf that it leads to; and so every point is held by a leaf. -/
theorem complete_of_subdivide {t : Tree α} (h : t.Reachable) (hfresh : t.isSubdivided = false) :
    ∃ done, t.subdivide.outcome = .ok done ∧ done.isSubdivided = true ∧
      done.settings = t.settings ∧ done.points = t.points ∧ done.Complete := by
  have hsound := Sound.of_reachable h
  obtain ⟨s, -, -, houtcome⟩ := subdivide_of_sound hsound hfresh
  exact ⟨_, houtcome, rfl, rfl, rfl, (hsound.subdivided houtcome).1.complete⟩

/-- The small tree loses no point, though two of its points lie on mid lines. -/
theorem complete_crossing :
    crossing.Reachable ∧ crossing.isSubdivided = false ∧
      ∃ done, crossing.subdivide.outcome = .ok done ∧ done.isSubdivided = true ∧
        done.settings = crossing.settings ∧ done.points = crossing.points ∧ done.Complete :=
  ⟨reachable_crossing, rfl, complete_of_subdivide reachable_crossing rfl⟩

end Tree

end QuadCode
