import Mathlib.Data.List.Forall2
import QuadCode.Proofs.Token.Location
import QuadCode.Proofs.Tree.Lifecycle
import QuadCode.Proofs.Tree.PrefixCode
import QuadCode.Token.Locations
import QuadCode.Token.Windows

/-!
# The views of an encoding

A leaf writes its code for the entities whose points it holds, and some leaf holds each point.  So
the codes of a tree are codes of its leaves, and exactly the entities that it has points for have
one.  A leaf is the undivided region itself if and only if there are few enough points to stop at
once; then every entity has the empty code, and otherwise none has.

Both encoders fill one tree for each view with as many points as there are entities, so each view
they make is such a view.

Main statements:

* `Sound.lod_eq_zero_iff`: when the leaves of a tree lie at the root;
* `isView_codes`: what the codes of a filled tree are;
* `Issued.views`: what the views of an encoding are, whichever encoder made it.
-/

namespace QuadCode

namespace Logged

variable {α β : Type}

/-- A sequence succeeds if both parts do. -/
theorem outcome_bind_eq_ok_iff {x : Logged α} {f : α → Logged β} {b : β} :
    (x >>= f).outcome = .ok b ↔ ∃ a, x.outcome = .ok a ∧ (f a).outcome = .ok b := by
  rw [outcome_bind]
  cases x.outcome with
  | error e =>
      constructor
      · intro h
        cases h
      · intro h
        obtain ⟨a, ha, -⟩ := h
        cases ha
  | ok a =>
      constructor
      · exact fun h => ⟨a, rfl, h⟩
      · intro h
        obtain ⟨a', ha', h⟩ := h
        cases ha'
        exact h

/-- A run over a list succeeds if it does at each item, and gives what it gives there. -/
theorem outcome_mapM_eq_ok_iff {f : α → Logged β} {xs : List α} {ys : List β} :
    (xs.mapM f).outcome = .ok ys ↔ List.Forall₂ (fun x y => (f x).outcome = .ok y) xs ys := by
  induction xs generalizing ys with
  | nil =>
      rw [List.mapM_nil]
      constructor
      · intro h
        cases h
        exact .nil
      · intro h
        cases h
        rfl
  | cons x xs ih =>
      rw [List.mapM_cons, outcome_bind_eq_ok_iff]
      constructor
      · intro h
        obtain ⟨y, hy, h⟩ := h
        obtain ⟨rest, hrest, h⟩ := outcome_bind_eq_ok_iff.mp h
        cases h
        exact .cons hy (ih.mp hrest)
      · intro h
        cases h with
        | cons hy hrest =>
            exact ⟨_, hy, outcome_bind_eq_ok_iff.mpr ⟨_, ih.mpr hrest, rfl⟩⟩

end Logged

/-- The codes of `count` entities in one view, written with a shift: each entity has one, and it is
the code of a key at the root if and only if there are few enough entities to stay there. -/
structure CodeMap.IsView (settings : Settings) (shift : Shift) (count : Nat) (codes : CodeMap) :
    Prop where
  entities : ∀ entity : Nat, codes[entity]?.isSome = true ↔ entity < count
  keys : ∀ (entity : Nat) (token : String), codes[entity]? = some token → ∃ key : Key,
    token = shift.apply key.code ∧ (key.lod = 0 ↔ count ≤ settings.splitThreshold.toNat)

namespace Tree

variable {t : Tree Nat} {shift : Shift} {codes : CodeMap} {leaves : List Node} {entity : Nat}
  {token : String}

/-- A code was written by one of the leaves, unless it was there. -/
theorem source_of_foldl_insertLeaf
    (h : (leaves.foldl (CodeMap.insertLeaf t shift) codes)[entity]? = some token) :
    codes[entity]? = some token ∨
      ∃ leaf ∈ leaves, entity ∈ t.entitiesOf leaf ∧ token = shift.apply leaf.key.code := by
  induction leaves generalizing codes with
  | nil => exact Or.inl h
  | cons leaf rest ih =>
      rcases ih h with hold | ⟨leaf', hmem, hleaf'⟩
      · rw [getElem?_insertLeaf] at hold
        split at hold
        · rename_i hentity
          exact Or.inr ⟨leaf, List.mem_cons_self, hentity, (Option.some.inj hold).symm⟩
        · exact Or.inl hold
      · exact Or.inr ⟨leaf', List.mem_cons_of_mem _ hmem, hleaf'⟩

/-- An entity that a leaf writes for has a code in the end, and so has one that had a code. -/
theorem isSome_foldl_insertLeaf
    (h : codes[entity]?.isSome = true ∨ ∃ leaf ∈ leaves, entity ∈ t.entitiesOf leaf) :
    (leaves.foldl (CodeMap.insertLeaf t shift) codes)[entity]?.isSome = true := by
  induction leaves generalizing codes with
  | nil =>
      rcases h with h | ⟨leaf, hmem, -⟩
      · exact h
      · cases hmem
  | cons leaf rest ih =>
      rw [List.foldl_cons]
      apply ih
      rw [getElem?_insertLeaf]
      by_cases hentity : entity ∈ t.entitiesOf leaf
      · left
        rw [if_pos hentity]
        rfl
      · rw [if_neg hentity]
        rcases h with h | ⟨leaf', hmem, hentity'⟩
        · exact Or.inl h
        · rcases List.mem_cons.mp hmem with rfl | hrest
          · exact absurd hentity' hentity
          · exact Or.inr ⟨leaf', hrest, hentity'⟩

/-- The codes that a tree gives are written by its occupied leaves. -/
theorem eq_foldl_of_codes {size : Float} (h : t.codes size shift = .ok codes) :
    codes = t.occupiedLeaves.foldl (CodeMap.insertLeaf t shift) ∅ := by
  unfold Tree.codes at h
  split at h
  · cases h
  · split at h
    · cases h
    · exact (Except.ok.inj h).symm

/-- **When a tree is its undivided region.**  The leaves of a subdivided tree lie at the root if the
tree has few enough points to stop there, and below it otherwise. -/
theorem Sound.lod_eq_zero_iff {α : Type} {t : Tree α} (h : t.Sound) (hdone : t.isSubdivided = true)
    {leaf : Node} (hleaf : leaf ∈ t.leaves) :
    leaf.key.lod = 0 ↔ t.points.size ≤ t.settings.splitThreshold.toNat := by
  have hgrowth := h.growth_of_isSubdivided hdone
  obtain ⟨root, hroot, hbare⟩ := hgrowth.first
  have hpath : root.key.path = [] := by
    have hkey : root.key = Key.root := congrArg Node.key hbare
    rw [hkey]
    rfl
  have hsize : root.points.size = t.points.size := by
    have hpoints : root.points = Array.range t.points.size := congrArg Node.points hbare
    rw [hpoints, Array.size_range]
  obtain ⟨hchildless, id, hid⟩ := h.mem_leaves_iff.mp hleaf
  rw [Node.isLeaf_iff] at hchildless
  constructor
  · intro hlod
    have hempty : leaf.key.path = [] := List.length_eq_zero_iff.mp (leaf.key.length_path.trans hlod)
    have hplace := hgrowth.place_unique rfl hid hroot (hempty.trans hpath.symm)
    rw [hplace, node?, hroot, Option.some.injEq] at hid
    rw [← hid] at hchildless hlod
    rcases hgrowth.stopped hroot hchildless List.not_mem_nil with hfew | hdeep
    · rwa [hsize] at hfew
    · omega
  · intro hfew
    -- The root has no children, so its path begins that of no other node.
    cases hkids : root.children with
    | some kids =>
        have hmany := (hgrowth.divided hroot hkids).1
        omega
    | none =>
        have hstart : root.key.path <+: leaf.key.path := by
          rw [hpath]
          exact List.nil_prefix
        have hplace := hgrowth.eq_of_leaf_prefix rfl hroot hkids hid hstart
        rw [← hplace, node?, hroot, Option.some.injEq] at hid
        rw [← hid, ← Key.length_path, hpath]
        rfl

/-- The points that a tree is filled with: entity `i` stands at position `i` of the list. -/
def entityPoints (places : List Location) : List (Point Nat) :=
  places.zipIdx.map fun (place, i) => Point.ofLocation place i

theorem length_entityPoints (places : List Location) :
    (entityPoints places).length = places.length := by
  rw [entityPoints, List.length_map, List.length_zipIdx]

theorem getElem?_entityPoints (places : List Location) (i : Nat) :
    (entityPoints places)[i]? = places[i]?.map fun place => Point.ofLocation place i := by
  rw [entityPoints, List.getElem?_map, List.getElem?_zipIdx, Option.map_map]
  simp [Function.comp_def]

/-- A new tree is filled first and subdivided then. -/
theorem subdividedWith_eq_ok_iff {empty tree : Tree Nat} {places : List Location} :
    (empty.subdividedWith places).outcome = .ok tree ↔
      (empty.extend (entityPoints places)).2 = .ok () ∧
        (empty.extend (entityPoints places)).1.subdivide.outcome = .ok tree := by
  constructor
  · intro h
    obtain ⟨u, hadded, hdone⟩ := Logged.outcome_bind_eq_ok_iff.mp h
    exact ⟨hadded, hdone⟩
  · intro h
    exact Logged.outcome_bind_eq_ok_iff.mpr ⟨(), h⟩

/-- A new tree that is filled and subdivided has the points it was filled with. -/
theorem subdividedWith_parts {settings : Settings} {empty tree : Tree Nat} {places : List Location}
    (hempty : (Tree.new settings).outcome = .ok empty)
    (htree : (empty.subdividedWith places).outcome = .ok tree) :
    tree.Sound ∧ tree.isSubdivided = true ∧ tree.settings = settings ∧
      tree.points.toList = entityPoints places := by
  have hsound := sound_of_new hempty
  obtain ⟨-, rfl⟩ := eq_of_new hempty
  obtain ⟨hadded, hdone⟩ := subdividedWith_eq_ok_iff.mp htree
  obtain ⟨hextended, hfits⟩ := (answers_fresh hsound rfl).extend_ok _ hadded
  have hfilled := hsound.withMore rfl fun p hp => (hfits p hp).2
  rw [show (Tree.extend _ _).1 = _ from hextended] at hdone
  have hfinished := hfilled.subdivided hdone
  obtain ⟨arena, houtcome, -⟩ := after_subdivide hfilled rfl
  rw [houtcome, Except.ok.injEq] at hdone
  subst hdone
  exact ⟨hfinished.1, rfl, rfl, by simp [withMore]⟩

/-- A new tree can be filled with places in its region, and has codes for them. -/
theorem exists_codes {settings : Settings} {empty : Tree Nat}
    (hempty : (Tree.new settings).outcome = .ok empty) {places : List Location}
    (hfits : ∀ place ∈ places, (Point.ofLocation place 0).fits settings.rectSize = true)
    (shift : Shift) :
    ∃ tree codes, (empty.subdividedWith places).outcome = .ok tree ∧
      tree.codes settings.rectSize shift = .ok codes := by
  have hpoints : ∀ p ∈ entityPoints places, p.fits settings.rectSize = true := by
    intro p hp
    obtain ⟨⟨place, i⟩, hmem, rfl⟩ := List.mem_map.mp hp
    exact hfits place (List.fst_mem_of_mem_zipIdx hmem)
  have hsound := sound_of_new hempty
  obtain ⟨-, rfl⟩ := eq_of_new hempty
  have hfilled := hsound.withMore rfl hpoints
  obtain ⟨arena, houtcome, -⟩ := after_subdivide hfilled rfl
  obtain ⟨hdone, hsubdivided⟩ := hfilled.subdivided houtcome
  have hextend := extend_of_fits (t := ⟨settings, #[], none⟩) rfl hpoints
  have hcodes := hdone.codes_eq hsubdivided shift
  refine ⟨_, _, subdividedWith_eq_ok_iff.mpr ⟨by rw [hextend], ?_⟩, hcodes⟩
  rw [hextend]
  exact houtcome

/-- **The codes of a filled tree.**  Exactly the entities that the tree was filled with have a code,
a shifted code of a leaf. -/
theorem isView_codes {settings : Settings} {empty tree : Tree Nat} {places : List Location}
    {size : Float} {shift : Shift} {codes : CodeMap}
    (hempty : (Tree.new settings).outcome = .ok empty)
    (htree : (empty.subdividedWith places).outcome = .ok tree)
    (hcodes : tree.codes size shift = .ok codes) :
    codes.IsView settings shift places.length := by
  obtain ⟨hsound, hdone, hsettings, hfilled⟩ := subdividedWith_parts hempty htree
  rw [eq_foldl_of_codes hcodes]
  have hsize : tree.points.size = places.length := by
    rw [← Array.length_toList, hfilled, length_entityPoints]
  have hpoints : ∀ i : Nat,
      tree.points[i]? = places[i]?.map fun place => Point.ofLocation place i := by
    intro i
    rw [← Array.getElem?_toList, hfilled, getElem?_entityPoints]
  constructor
  · intro entity
    constructor
    · intro hsome
      obtain ⟨token, htoken⟩ := Option.isSome_iff_exists.mp hsome
      rcases source_of_foldl_insertLeaf htoken with hnone | ⟨leaf, -, hwritten, -⟩
      · simp at hnone
      · obtain ⟨i, -, p, hp, rfl⟩ := mem_entitiesOf.mp hwritten
        rw [hpoints] at hp
        obtain ⟨place, hplace, rfl⟩ := Option.map_eq_some_iff.mp hp
        exact (List.getElem?_eq_some_iff.mp hplace).1
    · intro hlt
      obtain ⟨leaf, hleaf, hheld⟩ := hsound.complete.held entity (hsize ▸ hlt)
      have hoccupied : leaf ∈ tree.occupiedLeaves := by
        refine List.mem_filter.mpr ⟨hleaf, ?_⟩
        rw [Bool.not_eq_true', Array.isEmpty_eq_false_iff_exists_mem]
        exact ⟨entity, hheld⟩
      apply isSome_foldl_insertLeaf
      refine Or.inr ⟨leaf, hoccupied, mem_entitiesOf.mpr ⟨entity, hheld, ?_⟩⟩
      rw [hpoints, List.getElem?_eq_getElem hlt]
      exact ⟨_, rfl, rfl⟩
  · intro entity token htoken
    rcases source_of_foldl_insertLeaf htoken with hnone | ⟨leaf, hleaf, -, htoken⟩
    · simp at hnone
    · have hlod := hsound.lod_eq_zero_iff hdone (List.mem_filter.mp hleaf).1
      rw [hsize, hsettings] at hlod
      exact ⟨leaf.key, htoken, hlod⟩

end Tree

theorem isView_empty (settings : Settings) (shift : Shift) :
    (∅ : CodeMap).IsView settings shift 0 := by
  constructor
  · intro entity
    simp
  · intro entity token htoken
    simp at htoken

theorem centroid_eq_none_iff {cloud : List Location} : centroid cloud = none ↔ cloud = [] := by
  cases cloud <;> simp [centroid]

theorem boundingRect_eq_none_iff {cloud : List Location} :
    boundingRect cloud = none ↔ cloud = [] := by
  cases cloud <;> simp [boundingRect]

/-- Fitting a cloud into the region keeps all its locations. -/
theorem LocationEncoder.length_fitted {e : LocationEncoder} {cloud places : List Location}
    (h : (e.fitted cloud).outcome = .ok places) : places.length = cloud.length := by
  unfold fitted at h
  split at h
  · rename_i hnone
    cases h
    rw [boundingRect_eq_none_iff.mp hnone]
  · rename_i bounds hbounds
    by_cases hnone : coincide (e.fit.extents bounds) = true
    · simp only [if_pos hnone] at h
      cases h
      exact List.length_map _
    · simp only [if_neg hnone] at h
      cases h
      exact List.length_map _

/-- The view from one angle has a code for each location. -/
theorem LocationEncoder.isView_view {e : LocationEncoder} {cloud : List Location}
    {center : Location} {angle : Float} {codes : CodeMap}
    (h : (e.view cloud center angle).outcome = .ok codes) :
    codes.IsView e.settings e.shift cloud.length := by
  obtain ⟨empty, hempty, h⟩ := Logged.outcome_bind_eq_ok_iff.mp h
  obtain ⟨places, hplaces, h⟩ := Logged.outcome_bind_eq_ok_iff.mp h
  obtain ⟨tree, htree, hcodes⟩ := Logged.outcome_bind_eq_ok_iff.mp h
  have hview := Tree.isView_codes hempty htree hcodes
  rwa [length_fitted hplaces, List.length_map] at hview

/-- Windows are encoded if their places lie in the region. -/
theorem WindowEncoder.exists_encode {e : WindowEncoder} {empty : Tree Nat}
    (hempty : (Tree.new e.settings).outcome = .ok empty) {windows : List Window}
    (hfinite : ∀ w ∈ windows, w.isFinite = true) {m : TimeMap}
    (hmap : (e.timeMap windows).outcome = .ok m)
    (hfits : ∀ w ∈ windows, (Point.ofLocation ⟨e.place m w.start, e.place m w.finish⟩ 0).fits
      e.settings.rectSize = true) :
    ∃ encoding, (e.encode windows).outcome = .ok encoding := by
  have hnone : (windows.find? fun w => !w.isFinite) = none := by
    simpa using hfinite
  have hplaces : ∀ place ∈ windows.map fun w => Location.mk (e.place m w.start) (e.place m w.finish),
      (Point.ofLocation place 0).fits e.settings.rectSize = true := by
    intro place hplace
    obtain ⟨w, hw, rfl⟩ := List.mem_map.mp hplace
    exact hfits w hw
  obtain ⟨tree, codes, htree, hcodes⟩ := Tree.exists_codes hempty hplaces e.shift
  refine ⟨⟨[codes]⟩, ?_⟩
  rw [encode, hnone]
  refine Logged.outcome_bind_eq_ok_iff.mpr ⟨m, hmap, ?_⟩
  refine Logged.outcome_bind_eq_ok_iff.mpr ⟨empty, hempty, ?_⟩
  refine Logged.outcome_bind_eq_ok_iff.mpr ⟨tree, htree, ?_⟩
  refine Logged.outcome_bind_eq_ok_iff.mpr ⟨(), rfl, ?_⟩
  exact Logged.outcome_bind_eq_ok_iff.mpr ⟨codes, hcodes, rfl⟩

/-- An encoding that an encoder with valid settings made of `count` entities. -/
inductive Issued : Settings → Shift → Nat → Encoding → Prop
  | locations {settings : Settings} {angles : List Float} {base : LocationEncoder} (fit : Fit)
      (shift : Shift) {cloud : List Location} {encoding : Encoding}
      (hbase : LocationEncoder.ofAngles settings angles = .ok base)
      (hencoding : ({ base with fit, shift }.encode cloud).outcome = .ok encoding) :
      Issued settings shift cloud.length encoding
  | windows {settings : Settings} {base : WindowEncoder} (scale : TimeScale) (shift : Shift)
      {windows : List Window} {encoding : Encoding}
      (hbase : WindowEncoder.ofSettings settings = .ok base)
      (hencoding : ({ base with scale, shift }.encode windows).outcome = .ok encoding) :
      Issued settings shift windows.length encoding

theorem LocationEncoder.ofAngles_eq_ok {settings : Settings} {angles : List Float}
    {base : LocationEncoder} (h : ofAngles settings angles = .ok base) :
    angles ≠ [] ∧ base = { settings, angles } := by
  unfold ofAngles at h
  cases hvalid : settings.validate with
  | error e =>
      rw [hvalid] at h
      cases h
  | ok u =>
      rw [hvalid] at h
      cases angles with
      | nil => cases h
      | cons angle rest =>
          refine ⟨List.cons_ne_nil _ _, ?_⟩
          cases hfind : (angle :: rest).find? fun angle => !angle.isFinite with
          | some angle' =>
              rw [hfind] at h
              cases h
          | none =>
              rw [hfind] at h
              exact (Except.ok.inj h).symm

theorem WindowEncoder.ofSettings_eq_ok {settings : Settings} {base : WindowEncoder}
    (h : ofSettings settings = .ok base) : base = { settings } := by
  unfold ofSettings at h
  cases hvalid : settings.validate with
  | error e =>
      rw [hvalid] at h
      cases h
  | ok u =>
      rw [hvalid] at h
      exact (Except.ok.inj h).symm

theorem LocationEncoder.views_encode {e : LocationEncoder} {cloud : List Location}
    {encoding : Encoding} (h : (e.encode cloud).outcome = .ok encoding) :
    encoding.views.length = e.angles.length ∧
      ∀ view ∈ encoding.views, view.IsView e.settings e.shift cloud.length := by
  unfold encode at h
  split at h
  · cases h
  · split at h
    · rename_i hnone
      cases h
      rw [centroid_eq_none_iff.mp hnone]
      refine ⟨List.length_map _, ?_⟩
      intro view hview
      obtain ⟨angle, -, rfl⟩ := List.mem_map.mp hview
      exact isView_empty _ _
    · obtain ⟨views, hviews, h⟩ := Logged.outcome_bind_eq_ok_iff.mp h
      cases h
      obtain ⟨hlength, hpairs⟩ := List.forall₂_iff_get.mp (Logged.outcome_mapM_eq_ok_iff.mp hviews)
      refine ⟨hlength.symm, ?_⟩
      intro view hview
      obtain ⟨i, rfl⟩ := List.mem_iff_get.mp hview
      exact isView_view (hpairs i (lt_of_lt_of_eq i.isLt hlength.symm) i.isLt)

theorem WindowEncoder.views_encode {e : WindowEncoder} {windows : List Window}
    {encoding : Encoding} (h : (e.encode windows).outcome = .ok encoding) :
    encoding.views.length = 1 ∧
      ∀ view ∈ encoding.views, view.IsView e.settings e.shift windows.length := by
  unfold encode at h
  split at h
  · cases h
  · obtain ⟨m, -, h⟩ := Logged.outcome_bind_eq_ok_iff.mp h
    obtain ⟨empty, hempty, h⟩ := Logged.outcome_bind_eq_ok_iff.mp h
    obtain ⟨tree, htree, h⟩ := Logged.outcome_bind_eq_ok_iff.mp h
    obtain ⟨u, -, h⟩ := Logged.outcome_bind_eq_ok_iff.mp h
    obtain ⟨codes, hcodes, h⟩ := Logged.outcome_bind_eq_ok_iff.mp h
    cases h
    have hview := Tree.isView_codes hempty htree hcodes
    rw [List.length_map] at hview
    refine ⟨rfl, ?_⟩
    intro view hmem
    rw [List.mem_singleton.mp hmem]
    exact hview

/-- **The views of an encoding.**  Whichever encoder made it, there is at least one view, and each
view has a code for each entity. -/
theorem Issued.views {settings : Settings} {shift : Shift} {count : Nat} {encoding : Encoding}
    (h : Issued settings shift count encoding) :
    encoding.views ≠ [] ∧ ∀ view ∈ encoding.views, view.IsView settings shift count := by
  cases h with
  | locations fit shift hbase hencoding =>
      obtain ⟨hangles, rfl⟩ := LocationEncoder.ofAngles_eq_ok hbase
      obtain ⟨hlength, hviews⟩ := LocationEncoder.views_encode hencoding
      exact ⟨List.ne_nil_of_length_pos (hlength ▸ List.length_pos_iff.mpr hangles), hviews⟩
  | windows scale shift hbase hencoding =>
      have hbase := WindowEncoder.ofSettings_eq_ok hbase
      subst hbase
      obtain ⟨hlength, hviews⟩ := WindowEncoder.views_encode hencoding
      exact ⟨List.ne_nil_of_length_pos (hlength ▸ Nat.one_pos), hviews⟩

end QuadCode
