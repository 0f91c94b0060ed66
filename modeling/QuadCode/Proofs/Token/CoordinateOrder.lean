import QuadCode.Proofs.Geometry.Spaces
import QuadCode.Proofs.Token.Location
import QuadCode.Proofs.Tree.Seams

/-!
# Codes keep the order of coordinates

The code of an entity is that of the leaf that its point leads to, and at each split node on the way
the mid lines decide by a comparison with the point's coordinates.  The mid lines are grid lines, the
same in all branches, so the column of the leaf is the space between grid lines that the point
belongs to, and so is the row.  A code cut to a number of digits names the cell of that level that
the point leads to.  So two codes can be compared at any level that both reach, wherever in the tree
they come from, and there the columns and rows keep the order of the coordinates.

Main statements:

* `Sound.inSpaces_of_locate`: a location leads to a leaf in the spaces that it belongs to;
* `codes_keep_order`: codes of one length keep the order of coordinates.
-/

namespace QuadCode

open Rect

section

variable {α : Type} {points : Array (Point α)} {splitThreshold limit : ℕ} {root : Node}
  {nodes : Array Node} {waiting : List ℕ}

/-- From a node in the spaces that a location belongs to, the location leads to such a leaf. -/
theorem Growth.inSpaces_of_descend (h : Growth points splitThreshold limit root nodes waiting)
    {side : Float} (hroot : OnGrid side root.key root.rect) {l : Location} {id : ℕ} {n leaf : Node}
    (hn : nodes[id]? = some n) (hspaces : InSpaces side l n.key)
    (hleaf : descend nodes l id = some leaf) : InSpaces side l leaf.key := by
  refine h.leaf_induction (P := fun id n => InSpaces side l n.key →
    descend nodes l id = some leaf → InSpaces side l leaf.key) ?_ ?_ hn hspaces hleaf
  · intro id n hn hchildless hspaces hleaf
    rw [descend_leaf hn hchildless, Option.some.injEq] at hleaf
    exact hleaf ▸ hspaces
  · intro id n kids hn hkids hchildren hspaces hleaf
    rw [h.descend_branch l hn hkids] at hleaf
    obtain ⟨c, -, hchild, hbelow⟩ := hchildren (n.rect.quadrantOf l)
    exact hbelow (hspaces.child (h.onGrid hroot hn) (Node.childIn_parts hchild).1) hleaf

end

/-- Two codes, cut to the length of the shorter one, name cells of one level whose columns and rows
keep the order of two locations. -/
def KeepOrder (l l' : Location) (code code' : String) : Prop :=
  ∃ k k' : Key,
    Key.decode (Key.cut code (min code.length code'.length)) = .ok k ∧
    Key.decode (Key.cut code' (min code.length code'.length)) = .ok k' ∧
    (l.x ≤ l'.x → k.x ≤ k'.x) ∧ ((l.x == l'.x) = true → k.x = k'.x) ∧
    (l.y ≤ l'.y → k.y ≤ k'.y) ∧ ((l.y == l'.y) = true → k.y = k'.y)

/-- A code that is cut short names the cell of a level that stands in the spaces of a location, if
the whole code names such a cell. -/
theorem Rect.InSpaces.exists_decode_cut {side : Float} {l : Location} {k : Key}
    (h : InSpaces side l k) {lod : ℕ} (hle : lod ≤ k.lod) :
    ∃ above, Key.decode (Key.cut k.code lod) = .ok above ∧ above.x = gridSpace side lod l.x ∧
      above.y = gridSpace side lod l.y := by
  obtain ⟨above, habove, -, hx, hy⟩ := k.exists_decode_cut hle
  obtain ⟨deeper, hlod⟩ := Nat.exists_eq_add_of_le hle
  refine ⟨above, habove, ?_, ?_⟩
  · rw [hx, h.x, hlod, Nat.add_sub_cancel_left, gridSpace_div_pow]
  · rw [hy, h.y, hlod, Nat.add_sub_cancel_left, gridSpace_div_pow]

/-- The codes of cells in the spaces of two locations keep the order of the locations. -/
theorem Rect.InSpaces.keepOrder {side : Float} {l l' : Location} {k k' : Key}
    (h : InSpaces side l k) (h' : InSpaces side l' k') : KeepOrder l l' k.code k'.code := by
  rw [KeepOrder, Key.length_code, Key.length_code]
  obtain ⟨above, habove, hx, hy⟩ := h.exists_decode_cut (Nat.min_le_left k.lod k'.lod)
  obtain ⟨above', habove', hx', hy'⟩ := h'.exists_decode_cut (Nat.min_le_right k.lod k'.lod)
  refine ⟨above, above', habove, habove', ?_⟩
  rw [hx, hx', hy, hy']
  exact ⟨fun hle => gridSpace_mono hle _, fun heq => gridSpace_congr heq _,
    fun hle => gridSpace_mono hle _, fun heq => gridSpace_congr heq _⟩

namespace Tree

/-- **A location leads to a leaf in the spaces that it belongs to.** -/
theorem Sound.inSpaces_of_locate {α : Type} {t : Tree α} (h : t.Sound) {l : Location} {leaf : Node}
    (hlocate : t.locate l = some leaf) : InSpaces t.settings.rectSize l leaf.key := by
  obtain ⟨waiting, hgrowth⟩ := h.growth
  obtain ⟨root, hroot, hbare⟩ := hgrowth.first
  have hkey : root.key = Key.root := congrArg Node.key hbare
  have hspaces : InSpaces t.settings.rectSize l root.key := by
    rw [hkey]
    exact ⟨rfl, rfl⟩
  exact hgrowth.inSpaces_of_descend ⟨⟨rfl, rfl⟩, ⟨rfl, rfl⟩⟩ hroot hspaces hlocate

/-- **Codes keep the order of coordinates.**  In a subdivided tree whose points stand for different
entities, take the codes of any two points and cut them to the length of the shorter one.  The
column that is read from the one is not greater than that read from the other if the one point does
not lie to the right of the other, and it is the same if their horizontal coordinates are equal; and
so it is with rows and vertical coordinates. -/
theorem codes_keep_order {t : Tree Nat} (h : t.Reachable) (hdone : t.isSubdivided = true)
    (hdistinct : (t.points.toList.map Point.data).Nodup) :
    ∃ codes, t.codes t.settings.rectSize .identity = .ok codes ∧
      ∀ p ∈ t.points, ∀ q ∈ t.points, ∃ code code', codes[p.data]? = some code ∧
        codes[q.data]? = some code' ∧ KeepOrder p.toLocation q.toLocation code code' := by
  have hsound := Sound.of_reachable h
  refine ⟨_, hsound.codes_eq hdone .identity, ?_⟩
  intro p hp q hq
  obtain ⟨leaf, hlocate, hcode⟩ := hsound.code_of_locate hdistinct .identity hp
  obtain ⟨leaf', hlocate', hcode'⟩ := hsound.code_of_locate hdistinct .identity hq
  rw [apply_identity] at hcode hcode'
  exact ⟨_, _, hcode, hcode',
    (hsound.inSpaces_of_locate hlocate).keepOrder (hsound.inSpaces_of_locate hlocate')⟩

/-- The codes of the small tree keep the order of coordinates. -/
theorem codes_crossing_keep_order :
    let t := crossing.afterAll [.subdivide]
    t.Reachable ∧ t.isSubdivided = true ∧ (t.points.toList.map Point.data).Nodup ∧
      ∃ codes, t.codes t.settings.rectSize .identity = .ok codes ∧
        ∀ p ∈ t.points, ∀ q ∈ t.points, ∃ code code', codes[p.data]? = some code ∧
          codes[q.data]? = some code' ∧ KeepOrder p.toLocation q.toLocation code code' := by
  have hreachable := reachable_crossing.afterAll [.subdivide]
  obtain ⟨arena, hafter⟩ := exists_afterAll_crossing
  rw [hafter] at hreachable ⊢
  have hdistinct : (crossing.points.toList.map Point.data).Nodup := by decide
  exact ⟨hreachable, rfl, hdistinct, codes_keep_order hreachable rfl hdistinct⟩

end Tree

end QuadCode
