import QuadCode.Proofs.Token.Location
import QuadCode.Proofs.Tree.InsertionOrder

/-!
# Codes and the order of insertion

When entities share a payload, or a point is held by several leaves, codes overwrite each other, and
the last one stays.  The leaves come in the order of their cells and not in that of the points, and
all points of a leaf get one and the same code.  So the order in which points were added leaves no
trace in the codes either.

Main statements:

* `Reordered.codes_eq`: reordered trees have the same codes;
* `orderIrrelevant`: trees that gather the same points in different orders are the same, but for the
  positions of the points.
-/

namespace QuadCode.Tree

variable {π : Equiv.Perm ℕ} {t t' : Tree Nat}

/-- A leaf with the same points writes the same codes. -/
theorem insertLeaf_renumbered (hπ : Renumbers π t.points.toList t'.points.toList) {n n' : Node}
    (h : n.Renumbered π n') (shift : Shift) (codes : CodeMap) :
    codes.insertLeaf t' shift n' = codes.insertLeaf t shift n := by
  have hpoints : (t'.nodePoints n').toList.Perm (t.nodePoints n).toList := pointsAt_perm hπ h.points
  ext1 entity
  rw [CodeMap.insertLeaf, CodeMap.insertLeaf, ← Array.foldl_toList, ← Array.foldl_toList,
    getElem?_foldl_insert, getElem?_foldl_insert, h.key]
  simp only [(hpoints.map Point.data).mem_iff]

theorem foldl_insertLeaf_renumbered (hπ : Renumbers π t.points.toList t'.points.toList)
    {leaves leaves' : List Node} (h : List.Forall₂ (Node.Renumbered π) leaves leaves')
    (shift : Shift) (codes : CodeMap) :
    leaves'.foldl (CodeMap.insertLeaf t' shift) codes =
      leaves.foldl (CodeMap.insertLeaf t shift) codes := by
  induction h generalizing codes with
  | nil => rfl
  | cons hsame _ ih =>
      rw [List.foldl_cons, List.foldl_cons, insertLeaf_renumbered hπ hsame]
      exact ih _

/-- **Codes do not depend on the order of insertion.** -/
theorem Reordered.codes_eq (h : t.Reordered π t') (hdone : t.isSubdivided = true)
    (hdone' : t'.isSubdivided = true) (size : Float) (shift : Shift) :
    t'.codes size shift = t.codes size shift := by
  rw [codes, codes, hdone, hdone', h.settings,
    foldl_insertLeaf_renumbered h.points (occupiedLeaves_renumbered h.cells)]

/-- What does not change when points are added in another order to a tree with given settings. -/
structure OrderIrrelevant (settings : Settings) : Prop where
  /-- Points that are all taken, in one order, lead to a subdivided tree. -/
  gathers : ∀ {α : Type} {ps : List (Point α)} {empty t : Tree α},
    (Tree.new settings).outcome = .ok empty → empty.extend ps = (t, .ok ()) →
      ∃ done, Gathers settings ps done
  /-- In any other order they lead to the same tree, but for the positions of the points. -/
  reordered : ∀ {α : Type} {ps ps' : List (Point α)} {done : Tree α},
    Gathers settings ps done → ps.Perm ps' →
      ∃ done', Gathers settings ps' done' ∧ ∃ π, done.Reordered π done'
  /-- Both trees have codes for a region of their own size, the same ones; for another size they
  have none, for the same reason. -/
  codes : ∀ {ps ps' : List (Point Nat)} {done done' : Tree Nat},
    Gathers settings ps done → Gathers settings ps' done' → ps.Perm ps' → ∀ shift,
      (∃ codes, done.codes settings.rectSize shift = .ok codes ∧
        done'.codes settings.rectSize shift = .ok codes) ∧
      ∀ size, done'.codes size shift = done.codes size shift

/-- **The order of insertion does not matter**, whether payloads and points are repeated or not. -/
theorem orderIrrelevant (settings : Settings) : OrderIrrelevant settings where
  gathers hnew hextend := by
    obtain ⟨hvalid, hfits, -⟩ := exists_extend_iff.mp ⟨_, hnew, hextend⟩
    obtain ⟨s, -, hdone⟩ := exists_gathers hvalid hfits
    exact ⟨_, hdone⟩
  reordered h hperm := h.exists_reordered hperm
  codes h h' hperm shift := by
    obtain ⟨done, hdone, π, hreordered⟩ := h.exists_reordered hperm
    obtain rfl := hdone.unique h'
    obtain ⟨hsound, hsubdivided, hsettings⟩ := h.subdivided
    have hsame := fun size => hreordered.codes_eq hsubdivided h'.subdivided.2.1 size shift
    have hcodes := hsound.codes_eq hsubdivided shift
    rw [hsettings] at hcodes
    exact ⟨⟨_, hcodes, (hsame _).trans hcodes⟩, hsame⟩

/-- The points of the small tree, the last one first, lead to the same codes. -/
theorem orderIrrelevant_crossing :
    ∃ done done', Gathers {} crossing.points.toList done ∧
      Gathers {} crossing.points.toList.reverse done' ∧
        ∀ shift, (∃ codes, done.codes 1.0 shift = .ok codes ∧ done'.codes 1.0 shift = .ok codes) ∧
          ∀ size, done'.codes size shift = done.codes size shift := by
  have hextend : (⟨{}, #[], none⟩ : Tree Nat).extend crossing.points.toList = (crossing, .ok ()) :=
    rfl
  have hperm := (List.reverse_perm crossing.points.toList).symm
  obtain ⟨done, hdone⟩ := (orderIrrelevant {}).gathers rfl hextend
  obtain ⟨done', hdone', -⟩ := (orderIrrelevant {}).reordered hdone hperm
  exact ⟨done, done', hdone, hdone', (orderIrrelevant {}).codes hdone hdone' hperm⟩

end QuadCode.Tree
