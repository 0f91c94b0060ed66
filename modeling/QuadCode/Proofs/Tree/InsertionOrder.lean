import Mathlib.Data.List.Forall2
import Mathlib.Logic.Equiv.Basic
import QuadCode.Proofs.Tree.Contents
import QuadCode.Proofs.Tree.Lifecycle
import QuadCode.Proofs.Tree.Shape

/-!
# The order in which points are added

Nodes refer to points by position, and a position is nothing but the place of a point in the order
in which the points were added.  Adding the same points in another order renumbers them.  Whether a
node is split depends on how many points it holds, and which points a child gets depends on where
they lie; neither depends on their numbers.  So two subdivisions of the same points, looked at side
by side, make the same cells at the same places, and the points in them differ by the renumbering
only.

Main statements:

* `exists_renumbering`: lists with the same elements differ by a renumbering of their positions;
* `run_renumbered`: runs over renumbered points make the same cells, step by step;
* `Gathers.exists_reordered`: so do the trees that gather the same points in different orders.
-/

namespace QuadCode

open Subdivision

variable {α : Type}

/-- The points of one array at other positions. -/
def Renumbers {β : Type} (π : Equiv.Perm ℕ) (xs ys : List β) : Prop :=
  ∀ i, ys[π i]? = xs[i]?

/-- A renumbering of the positions behind the first one. -/
def shiftPerm (π : Equiv.Perm ℕ) : Equiv.Perm ℕ where
  toFun
    | 0 => 0
    | i + 1 => π i + 1
  invFun
    | 0 => 0
    | i + 1 => π.symm i + 1
  left_inv i := by cases i <;> simp
  right_inv i := by cases i <;> simp

/-- **Lists with the same elements differ by a renumbering**, whether elements are repeated or
not. -/
theorem exists_renumbering {β : Type} {xs ys : List β} (h : xs.Perm ys) :
    ∃ π, Renumbers π xs ys := by
  induction h with
  | nil => exact ⟨Equiv.refl ℕ, fun i => rfl⟩
  | cons x _ ih =>
      obtain ⟨π, hπ⟩ := ih
      refine ⟨shiftPerm π, fun i => ?_⟩
      cases i with
      | zero => rfl
      | succ i => exact hπ i
  | swap x y rest =>
      refine ⟨Equiv.swap 0 1, fun i => ?_⟩
      match i with
      | 0 => rfl
      | 1 => rfl
      | i + 2 => rw [Equiv.swap_apply_of_ne_of_ne (by omega) (by omega)]; rfl
  | trans _ _ ih ih' =>
      obtain ⟨π, hπ⟩ := ih
      obtain ⟨π', hπ'⟩ := ih'
      exact ⟨π.trans π', fun i => (hπ' (π i)).trans (hπ i)⟩

/-- The same node, but for a renumbering of the points that it holds. -/
structure Node.Renumbered (π : Equiv.Perm ℕ) (n n' : Node) : Prop where
  key : n'.key = n.key
  rect : n'.rect = n.rect
  children : n'.children = n.children
  points : (n.points.toList.map π).Perm n'.points.toList

namespace Node.Renumbered

variable {π : Equiv.Perm ℕ} {n n' c : Node} {xs ys : Array (Point α)} {q : Quadrant}

theorem size_eq (h : n.Renumbered π n') : n'.points.size = n.points.size := by
  have hlength := h.points.length_eq
  rw [List.length_map, Array.length_toList, Array.length_toList] at hlength
  exact hlength.symm

/-- The points that a rectangle contains are the same points. -/
theorem pointsIn (h : n.Renumbered π n') (hπ : Renumbers π xs.toList ys.toList) (rect : Rect) :
    ((n.pointsIn xs rect).toList.map π).Perm (n'.pointsIn ys rect).toList := by
  have hget (i : ℕ) : ys[π i]? = xs[i]? := by
    rw [← Array.getElem?_toList, ← Array.getElem?_toList]
    exact hπ i
  rw [Node.pointsIn, Node.pointsIn, Array.toList_filter, Array.toList_filter]
  convert h.points.filter _ using 1
  rw [List.filter_map]
  congr 2
  funext i
  simp only [Function.comp_apply, hget i]

/-- A quadrant of the same node is the same child. -/
theorem childIn (h : n.Renumbered π n') (hπ : Renumbers π xs.toList ys.toList)
    (hc : n.childIn xs q = .ok c) : ∃ c', n'.childIn ys q = .ok c' ∧ c.Renumbered π c' := by
  unfold Node.childIn at hc ⊢
  rw [h.key]
  cases hkey : n.key.child q with
  | error e =>
      rw [hkey] at hc
      cases hc
  | ok key =>
      rw [hkey] at hc
      cases hc
      exact ⟨_, rfl, rfl, by rw [h.rect]; rfl, rfl, by rw [h.rect]; exact h.pointsIn hπ _⟩

/-- A split of the same node gives the same children. -/
theorem split (h : n.Renumbered π n') (hπ : Renumbers π xs.toList ys.toList)
    {kids : Quadrants Node} (hkids : n.split xs = .ok kids) :
    ∃ kids', n'.split ys = .ok kids' ∧ ∀ q, (kids.get q).Renumbered π (kids'.get q) := by
  choose kid hkid hsame using fun q => h.childIn hπ (split_eq_ok_iff.mp hkids q)
  refine ⟨Quadrants.ofFn kid, split_eq_ok_iff.mpr fun q => ?_, fun q => ?_⟩
  · rw [Quadrants.get_ofFn, hkid q]
  · rw [Quadrants.get_ofFn]
    exact hsame q

end Node.Renumbered

/-- Arrays with the same nodes at the same places, but for a renumbering of the points. -/
structure SameCells (π : Equiv.Perm ℕ) (nodes nodes' : Array Node) : Prop where
  size : nodes'.size = nodes.size
  node : ∀ {id : Nat} {n n' : Node}, nodes[id]? = some n → nodes'[id]? = some n' →
    n.Renumbered π n'

section

variable {π : Equiv.Perm ℕ} {xs ys : Array (Point α)} {splitThreshold limit : Nat}

/-- Splitting the same node leaves the same cells. -/
theorem SameCells.divide {s s' : Subdivision} (h : SameCells π s.nodes s'.nodes) (id : Nat)
    (node node' : Node) {kids kids' : Quadrants Node}
    (hkids : ∀ q, (kids.get q).Renumbered π (kids'.get q)) :
    SameCells π (s.divide id node kids).nodes (s'.divide id node' kids').nodes := by
  constructor
  · rw [size_divide, size_divide, h.size]
  · intro j n n' hn hn'
    rcases divide_cases hn with ⟨rfl, m, hm, rfl⟩ | ⟨hne, hold⟩ | ⟨q, rfl, rfl⟩
    · have hlt : j < s'.nodes.size := by
        rw [h.size]
        exact (Array.getElem?_eq_some_iff.mp hm).1
      have hm' := Array.getElem?_eq_getElem hlt
      have hsame := h.node hm hm'
      rw [getElem?_divide_of_lt s' j node' kids' hlt, if_pos rfl, hm', Option.map_some,
        Option.some.injEq] at hn'
      subst hn'
      exact ⟨hsame.key, hsame.rect, by rw [h.size], hsame.points⟩
    · have hlt : j < s'.nodes.size := by
        rw [h.size]
        exact (Array.getElem?_eq_some_iff.mp hold).1
      rw [getElem?_divide_of_lt s' id node' kids' hlt, if_neg (Ne.symm hne)] at hn'
      exact h.node hold hn'
    · rw [← h.size, getElem?_divide_kid, Option.some.injEq] at hn'
      rw [← hn']
      exact hkids q

/-- The same nodes wait, one after the other. -/
def SamePending (π : Equiv.Perm ℕ) : List Pending → List Pending → Prop :=
  List.Forall₂ fun p p' => p'.id = p.id ∧ p.node.Renumbered π p'.node

theorem samePending_from (first : Nat) {kids kids' : Quadrants Node}
    (h : ∀ q, (kids.get q).Renumbered π (kids'.get q)) :
    SamePending π (pendingFrom first kids) (pendingFrom first kids') := by
  rw [SamePending, pendingFrom_eq_map, pendingFrom_eq_map, List.forall₂_map_left_iff,
    List.forall₂_map_right_iff, List.forall₂_same]
  exact fun q _ => ⟨rfl, h q⟩

/-- **Runs side by side.**  If the same nodes wait over the same cells, a run over renumbered points
succeeds as well and leaves the same cells. -/
theorem run_renumbered (hπ : Renumbers π xs.toList ys.toList) {s s' done : Subdivision}
    {stack stack' : List Pending} (hcells : SameCells π s.nodes s'.nodes)
    (hstack : SamePending π stack stack')
    (hrun : run xs splitThreshold limit s stack = .ok done) :
    ∃ done', run ys splitThreshold limit s' stack' = .ok done' ∧
      SameCells π done.nodes done'.nodes := by
  induction s, stack using run.induct xs splitThreshold limit generalizing s' stack' with
  | case1 s =>
      obtain rfl := List.forall₂_nil_left_iff.mp hstack
      rw [run, Except.ok.injEq] at hrun
      subst hrun
      exact ⟨s', by rw [run], hcells⟩
  | case2 s id node rest hfew ih =>
      obtain ⟨⟨id', node'⟩, rest', ⟨rfl, hnode⟩, hrest, rfl⟩ := List.forall₂_cons_left_iff.mp hstack
      rw [run_few hfew] at hrun
      rw [run_few (by rwa [hnode.size_eq])]
      exact ih hcells hrest hrun
  | case3 s id node rest hmany hdeep ih =>
      obtain ⟨⟨id', node'⟩, rest', ⟨rfl, hnode⟩, hrest, rfl⟩ := List.forall₂_cons_left_iff.mp hstack
      rw [run_deep hmany hdeep] at hrun
      rw [run_deep (by rwa [hnode.size_eq]) (by rwa [hnode.key])]
      exact ih hcells hrest hrun
  | case4 s id node rest hmany hlod e he =>
      rw [run_split hmany hlod, he] at hrun
      cases hrun
  | case5 s id node rest hmany hlod kids hkids first =>
      rename_i ih
      obtain ⟨⟨id', node'⟩, rest', ⟨rfl, hnode⟩, hrest, rfl⟩ := List.forall₂_cons_left_iff.mp hstack
      obtain ⟨kids', hkids', hsame⟩ := hnode.split hπ hkids
      rw [run_split hmany hlod, hkids] at hrun
      rw [run_split (by rwa [hnode.size_eq]) (by rwa [hnode.key]), hkids']
      refine ih (hcells.divide id' node node' hsame) ?_ hrun
      rw [hcells.size]
      exact List.rel_append (samePending_from s.nodes.size hsame) hrest

end

namespace SameCells

variable {π : Equiv.Perm ℕ} {nodes nodes' : Array Node}

theorem exists_node (h : SameCells π nodes nodes') {id : Nat} {n : Node}
    (hn : nodes[id]? = some n) : ∃ n', nodes'[id]? = some n' ∧ n.Renumbered π n' := by
  have hlt : id < nodes'.size := by
    rw [h.size]
    exact (Array.getElem?_eq_some_iff.mp hn).1
  have hn' := Array.getElem?_eq_getElem hlt
  exact ⟨_, hn', h.node hn hn'⟩

theorem getElem?_eq_none (h : SameCells π nodes nodes') {id : Nat} (hnone : nodes[id]? = none) :
    nodes'[id]? = none := by
  rw [Array.getElem?_eq_none_iff] at hnone ⊢
  rwa [h.size]

/-- The leaves below a node stand at the same places. -/
theorem leavesBelow_eq (h : SameCells π nodes nodes') (id : Nat) :
    leavesBelow nodes' id = leavesBelow nodes id := by
  fun_induction leavesBelow nodes id with
  | case1 id hnone => rw [leavesBelow, h.getElem?_eq_none hnone]
  | case2 id n hn hleaf =>
      obtain ⟨n', hn', hsame⟩ := h.exists_node hn
      exact leavesBelow_leaf hn' (hsame.children.trans hleaf)
  | case3 id n hn kids hkids ih =>
      obtain ⟨n', hn', hsame⟩ := h.exists_node hn
      rw [leavesBelow, hn']
      simp only [hsame.children, hkids, h.size]
      apply List.flatMap_congr
      intro kid _
      split_ifs with hlink
      · exact ih kid hlink
      · rfl

/-- A list of places leads to the same nodes. -/
theorem filterMap (h : SameCells π nodes nodes') (ids : List Nat) :
    List.Forall₂ (Node.Renumbered π) (ids.filterMap (nodes[·]?)) (ids.filterMap (nodes'[·]?)) := by
  induction ids with
  | nil => exact .nil
  | cons id ids ih =>
      cases hn : nodes[id]? with
      | none => rwa [List.filterMap_cons_none hn, List.filterMap_cons_none (h.getElem?_eq_none hn)]
      | some n =>
          obtain ⟨n', hn', hsame⟩ := h.exists_node hn
          rw [List.filterMap_cons_some hn, List.filterMap_cons_some hn']
          exact .cons hsame ih

end SameCells

namespace Tree

variable {π : Equiv.Perm ℕ} {t t' : Tree α}

/-- The undivided region holds all points, so it holds the same points in any order. -/
theorem undivided_renumbered (hsettings : t'.settings = t.settings)
    (hπ : Renumbers π t.points.toList t'.points.toList) :
    t.undivided.Renumbered π t'.undivided := by
  have hlt (i : ℕ) : π i < t'.points.size ↔ i < t.points.size := by
    have hnone : t'.points.toList[π i]? = none ↔ t.points.toList[i]? = none := by rw [hπ i]
    rw [List.getElem?_eq_none_iff, List.getElem?_eq_none_iff, Array.length_toList,
      Array.length_toList] at hnone
    omega
  refine ⟨rfl, ?_, rfl, ?_⟩
  · rw [undivided, undivided, region, region, hsettings]
    rfl
  · rw [undivided, undivided, Node.leaf, Node.leaf, Array.toList_range, Array.toList_range,
      List.perm_ext_iff_of_nodup (List.nodup_range.map π.injective) List.nodup_range]
    intro j
    rw [List.mem_map, List.mem_range]
    constructor
    · rintro ⟨i, hi, rfl⟩
      exact (hlt i).mpr (List.mem_range.mp hi)
    · intro hj
      refine ⟨π.symm j, List.mem_range.mpr ?_, π.apply_symm_apply j⟩
      rwa [← hlt, π.apply_symm_apply]

/-- The same positions, renumbered, lead to the same points. -/
theorem pointsAt_perm (hπ : Renumbers π t.points.toList t'.points.toList) {held held' : Array Nat}
    (hheld : (held.toList.map π).Perm held'.toList) :
    (t'.pointsAt held').toList.Perm (t.pointsAt held).toList := by
  have hget : (fun i => t.points[i]?) = (fun i => t'.points[i]?) ∘ π := by
    funext i
    rw [Function.comp_apply, ← Array.getElem?_toList, ← Array.getElem?_toList, hπ i]
  rw [pointsAt, pointsAt, Array.toList_filterMap, Array.toList_filterMap, hget, ← List.filterMap_map]
  exact (hheld.filterMap _).symm

/-- The leaves that hold a point are the same. -/
theorem occupiedLeaves_renumbered (h : SameCells π t.nodes t'.nodes) :
    List.Forall₂ (Node.Renumbered π) t.occupiedLeaves t'.occupiedLeaves := by
  have hleaves : List.Forall₂ (Node.Renumbered π) t.leaves t'.leaves := by
    rw [leaves, leaves, leavesFrom, leavesFrom, h.leavesBelow_eq]
    exact h.filterMap _
  refine List.rel_filter ?_ hleaves
  intro n n' hsame
  have hempty : n'.points.isEmpty = n.points.isEmpty := by
    rw [Bool.eq_iff_iff, Array.isEmpty_iff_size_eq_zero, Array.isEmpty_iff_size_eq_zero,
      hsame.size_eq]
  simp only [hempty]

/-- Entries of two indices with the same points, but for a renumbering. -/
def SameEntry (π : Equiv.Perm ℕ) : Option (Array Nat) → Option (Array Nat) → Prop :=
  Option.Rel fun held held' => (held.toList.map π).Perm held'.toList

theorem sameEntry_foldl_insert {leaves leaves' : List Node}
    (h : List.Forall₂ (Node.Renumbered π) leaves leaves') {found found' : LeafIndex}
    (hfound : ∀ code : String, SameEntry π found[code]? found'[code]?) (code : String) :
    SameEntry π
      (leaves.foldl (fun found leaf => found.insert leaf.key.code leaf.points) found)[code]?
      (leaves'.foldl (fun found leaf => found.insert leaf.key.code leaf.points) found')[code]? := by
  induction h generalizing found found' with
  | nil => exact hfound code
  | cons hsame _ ih =>
      refine ih fun code => ?_
      rw [Std.ExtTreeMap.getElem?_insert, Std.ExtTreeMap.getElem?_insert, hsame.key]
      split_ifs
      · exact .some hsame.points
      · exact hfound code

/-- Subdivided trees index the same points under the same codes. -/
theorem sameEntry_index (h : SameCells π t.nodes t'.nodes) (hdone : t.isSubdivided = true)
    (hdone' : t'.isSubdivided = true) (code : String) :
    SameEntry π t.index[code]? t'.index[code]? := by
  rw [index, index, if_pos hdone, if_pos hdone']
  have hempty (code : String) : SameEntry π (∅ : LeafIndex)[code]? (∅ : LeafIndex)[code]? := .none
  exact sameEntry_foldl_insert (occupiedLeaves_renumbered h) hempty code

/-- The same tree, but for the order in which the points were added. -/
structure Reordered (π : Equiv.Perm ℕ) (t t' : Tree α) : Prop where
  settings : t'.settings = t.settings
  points : Renumbers π t.points.toList t'.points.toList
  cells : SameCells π t.nodes t'.nodes
  /-- The same codes are indexed. -/
  indexed : ∀ code : String, code ∈ t'.index ↔ code ∈ t.index
  /-- Under each code, the same points are found. -/
  leafPoints : ∀ code : String, (t'.leafPoints code).toList.Perm (t.leafPoints code).toList

/-- Trees with the same cells are the same in all that is read off their cells. -/
theorem reordered_of_sameCells (hsettings : t'.settings = t.settings)
    (hπ : Renumbers π t.points.toList t'.points.toList) (h : SameCells π t.nodes t'.nodes)
    (hdone : t.isSubdivided = true) (hdone' : t'.isSubdivided = true) : t.Reordered π t' := by
  refine
    { settings := hsettings
      points := hπ
      cells := h
      indexed := fun code => ?_
      leafPoints := fun code => ?_ }
  · have hentry := sameEntry_index h hdone hdone' code
    rw [Std.ExtTreeMap.mem_iff_isSome_getElem?, Std.ExtTreeMap.mem_iff_isSome_getElem?]
    generalize t.index[code]? = held at hentry ⊢
    generalize t'.index[code]? = held' at hentry ⊢
    cases hentry <;> rfl
  · have hentry := sameEntry_index h hdone hdone' code
    apply pointsAt_perm hπ
    generalize t.index[code]? = held at hentry ⊢
    generalize t'.index[code]? = held' at hentry ⊢
    cases hentry with
    | none => exact .refl _
    | some hheld => exact hheld

/-- The tree that takes all the given points, in that order, and is then subdivided. -/
def Gathers (settings : Settings) (ps : List (Point α)) (done : Tree α) : Prop :=
  ∃ empty t, (Tree.new settings).outcome = .ok empty ∧ empty.extend ps = (t, .ok ()) ∧
    t.subdivide.outcome = .ok done

/-- A new tree takes all of the given points exactly if its settings are valid and the points fit its
region. -/
theorem exists_extend_iff {settings : Settings} {ps : List (Point α)} {t : Tree α} :
    (∃ empty, (Tree.new settings).outcome = .ok empty ∧ empty.extend ps = (t, .ok ())) ↔
      settings.validate = .ok () ∧ (∀ p ∈ ps, p.fits settings.rectSize = true) ∧
        t = ⟨settings, ps.toArray, none⟩ := by
  have hmore : (⟨settings, #[], none⟩ : Tree α).withMore ps = ⟨settings, ps.toArray, none⟩ := by
    simp [withMore]
  constructor
  · rintro ⟨empty, hnew, hextend⟩
    obtain ⟨hvalid, rfl⟩ := eq_of_new hnew
    rcases fits_or_exists_first settings.rectSize ps with hfits | ⟨front, p, back, rfl, hfront, hp⟩
    · rw [extend_of_fits (t := ⟨settings, #[], none⟩) rfl hfits, hmore] at hextend
      exact ⟨hvalid, hfits, (Prod.mk.inj hextend).1.symm⟩
    · rw [extend_of_not_fits (t := ⟨settings, #[], none⟩) rfl hfront hp] at hextend
      obtain ⟨-, hno⟩ := Prod.mk.inj hextend
      cases hno
  · rintro ⟨hvalid, hfits, rfl⟩
    refine ⟨⟨settings, #[], none⟩, ?_, ?_⟩
    · rw [new_outcome, hvalid]
      rfl
    · rw [extend_of_fits (t := ⟨settings, #[], none⟩) rfl hfits, hmore]

/-- Valid settings and points that fit the region make a sound tree. -/
theorem sound_of_fits {settings : Settings} {ps : List (Point α)}
    (hvalid : settings.validate = .ok ()) (hfits : ∀ p ∈ ps, p.fits settings.rectSize = true) :
    (⟨settings, ps.toArray, none⟩ : Tree α).Sound where
  valid := hvalid
  admitted p hp := by
    rw [admits_eq_fits]
    exact hfits p (List.mem_toArray.mp hp)
  grown nodes hnodes := by cases hnodes

/-- Points that are all taken can be subdivided. -/
theorem exists_gathers {settings : Settings} {ps : List (Point α)}
    (hvalid : settings.validate = .ok ()) (hfits : ∀ p ∈ ps, p.fits settings.rectSize = true) :
    ∃ s, run ps.toArray settings.splitThreshold.toNat settings.lodThreshold.toNat
        (initial (⟨settings, ps.toArray, none⟩ : Tree α).undivided)
        [⟨0, (⟨settings, ps.toArray, none⟩ : Tree α).undivided⟩] = .ok s ∧
      Gathers settings ps ⟨settings, ps.toArray, some s.nodes⟩ := by
  obtain ⟨s, hrun, -, hdone⟩ := subdivide_of_sound (sound_of_fits hvalid hfits) rfl
  obtain ⟨empty, hnew, hextend⟩ := exists_extend_iff.mpr ⟨hvalid, hfits, rfl⟩
  exact ⟨s, hrun, empty, _, hnew, hextend, hdone⟩

/-- The points that a tree gathers fit its region. -/
theorem Gathers.parts {settings : Settings} {ps : List (Point α)} {done : Tree α}
    (h : Gathers settings ps done) : settings.validate = .ok () ∧
      (∀ p ∈ ps, p.fits settings.rectSize = true) ∧
        (⟨settings, ps.toArray, none⟩ : Tree α).subdivide.outcome = .ok done := by
  obtain ⟨empty, t, hnew, hextend, hdone⟩ := h
  obtain ⟨hvalid, hfits, rfl⟩ := exists_extend_iff.mp ⟨empty, hnew, hextend⟩
  exact ⟨hvalid, hfits, hdone⟩

/-- The points that a tree gathers lead to one subdivided tree. -/
theorem Gathers.unique {settings : Settings} {ps : List (Point α)} {done done' : Tree α}
    (h : Gathers settings ps done) (h' : Gathers settings ps done') : done = done' :=
  Except.ok.inj (h.parts.2.2.symm.trans h'.parts.2.2)

/-- The tree that points lead to is subdivided and has the given settings. -/
theorem Gathers.subdivided {settings : Settings} {ps : List (Point α)} {done : Tree α}
    (h : Gathers settings ps done) :
    done.Sound ∧ done.isSubdivided = true ∧ done.settings = settings := by
  obtain ⟨hvalid, hfits, hdone⟩ := h.parts
  obtain ⟨hsound, hsubdivided⟩ := (sound_of_fits hvalid hfits).subdivided hdone
  obtain ⟨s, -, hgathers⟩ := exists_gathers hvalid hfits
  exact ⟨hsound, hsubdivided, congrArg Tree.settings (h.unique hgathers)⟩

/-- Two undivided regions with the same points are the same cells, and the same node waits. -/
theorem sameCells_initial (hsettings : t'.settings = t.settings)
    (hπ : Renumbers π t.points.toList t'.points.toList) :
    SameCells π (initial t.undivided).nodes (initial t'.undivided).nodes ∧
      SamePending π [⟨0, t.undivided⟩] [⟨0, t'.undivided⟩] := by
  have hroot := undivided_renumbered hsettings hπ
  refine ⟨⟨rfl, ?_⟩, .cons ⟨rfl, hroot⟩ .nil⟩
  intro id n n' hn hn'
  obtain ⟨hlt, rfl⟩ := Array.getElem?_eq_some_iff.mp hn
  obtain rfl : id = 0 := Nat.lt_one_iff.mp hlt
  obtain rfl := Option.some.inj hn'
  exact hroot

/-- **Trees that gather the same points in different orders have the same cells.** -/
theorem Gathers.exists_reordered {settings : Settings} {ps ps' : List (Point α)} {done : Tree α}
    (h : Gathers settings ps done) (hperm : ps.Perm ps') :
    ∃ done', Gathers settings ps' done' ∧ ∃ π, done.Reordered π done' := by
  obtain ⟨hvalid, hfits, -⟩ := h.parts
  have hfits' : ∀ p ∈ ps', p.fits settings.rectSize = true := fun p hp =>
    hfits p (hperm.mem_iff.mpr hp)
  obtain ⟨π, hπ⟩ := exists_renumbering hperm
  obtain ⟨s, hrun, hdone⟩ := exists_gathers hvalid hfits
  obtain ⟨s', hrun', hdone'⟩ := exists_gathers hvalid hfits'
  obtain rfl := hdone.unique h
  have hsettings : (⟨settings, ps'.toArray, none⟩ : Tree α).settings =
      (⟨settings, ps.toArray, none⟩ : Tree α).settings := rfl
  obtain ⟨hcells, hstack⟩ := sameCells_initial hsettings hπ
  obtain ⟨s'', hrun'', hcells⟩ := run_renumbered hπ hcells hstack hrun
  obtain rfl := Except.ok.inj (hrun'.symm.trans hrun'')
  exact ⟨_, hdone', π, reordered_of_sameCells rfl hπ hcells rfl rfl⟩

end Tree

end QuadCode
