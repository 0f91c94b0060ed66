import QuadCode.Proofs.Tree.Lifecycle
import QuadCode.Proofs.Tree.Sharing

/-!
# What the depth limit protects against

Two bounds that coincide make quadrants that coincide, and then a split copies points without
telling them apart.  The greatest depth limit is such that this does not happen in the unit region:
its cells keep a positive width down to level 53, the level of the children of the deepest nodes
that are split.  The same holds of every region whose side is a power of two and has a unit for each
cell of that level.  In other regions with so many units it holds down to level 52.  But settings
are not refused because their region has fewer units: in `speck` the region is one unit wide, and
the first split already makes cells without width.

Main statements:

* `Settings.resolves_unit`: the unit region resolves the levels that any valid depth limit allows;
* `guarded_of_reachable`: cells are solid, and points are copied to four nodes at most, down to the
  levels that the settings resolve;
* `degenerate_speck`: valid settings do not ensure this.
-/

namespace QuadCode

open Double

variable {α : Type}

/-- The unit region has cells of a positive width and height, however deep the settings let it be
split. -/
theorem Settings.resolves_unit {s : Settings} (h : s.validate = .ok ()) (hunit : s.rectSize = 1.0) :
    s.Resolves (s.lodThreshold.toNat + 1) := by
  obtain ⟨-, -, hlimit⟩ := parts_of_valid h
  rw [Resolves, hunit, units_one]
  exact ⟨pow_le_pow_right₀ (by decide) (by omega), Or.inr ⟨1074, rfl⟩⟩

namespace Tree

/-- Down to the levels that its settings resolve, a tree has no cell without width or height, and no
more than four nodes of a level hold the same point. -/
structure Guarded (t : Tree α) : Prop where
  solid : ∀ n ∈ t.nodes, t.settings.Resolves n.key.lod →
    n.rect.minX < n.rect.maxX ∧ n.rect.minY < n.rect.maxY
  sparse : ∀ i lod : Nat, t.settings.Resolves lod →
    t.nodes.countP (fun n => n.key.lod = lod ∧ i ∈ n.points) ≤ 4
  /-- The children of the deepest nodes that may be split are the deepest nodes of all. -/
  every : t.settings.Resolves (t.settings.lodThreshold.toNat + 1) →
    ∀ n ∈ t.nodes, n.rect.minX < n.rect.maxX ∧ n.rect.minY < n.rect.maxY
  unit : t.settings.rectSize = 1.0 → t.settings.Resolves (t.settings.lodThreshold.toNat + 1)

/-- **The depth limit protects what the settings resolve.** -/
theorem guarded_of_reachable {t : Tree α} (h : t.Reachable) : t.Guarded := by
  have hsound := Sound.of_reachable h
  have hsolid : ∀ n ∈ t.nodes, t.settings.Resolves n.key.lod → n.rect.Solid := by
    intro n hn hresolves
    obtain ⟨id, hid⟩ := Array.mem_iff_getElem?.mp hn
    exact hsound.solid hid hresolves
  refine
    { solid := ?_
      sparse := ?_
      every := ?_
      unit := Settings.resolves_unit hsound.valid }
  · intro n hn hresolves
    obtain ⟨hx, hy⟩ := hsolid n hn hresolves
    exact ⟨hx, hy⟩
  · intro i lod hresolves
    apply hsound.countP_level_le i lod
    intro n hn hlod
    exact hsolid n hn (hlod ▸ hresolves)
  · intro hresolves n hn
    obtain ⟨hx, hy⟩ := hsound.all_solid hresolves n hn
    exact ⟨hx, hy⟩

/-- The small tree, subdivided, is guarded down to the level below its depth limit. -/
theorem guarded_crossing :
    let t := crossing.afterAll [.subdivide]
    t.Reachable ∧ t.isSubdivided = true ∧ t.Guarded ∧
      crossing.settings.Resolves (crossing.settings.lodThreshold.toNat + 1) := by
  have hreachable := reachable_crossing.afterAll [.subdivide]
  exact ⟨hreachable, isSubdivided_crossing, guarded_of_reachable hreachable,
    Settings.resolves_unit rfl rfl⟩

/-- Two points at the origin, in a region that is as small as a region can be. -/
def speck : Tree Nat :=
  ⟨{ rectSize := 5e-324, lodThreshold := 0 }, #[⟨⟨0.0, 0.0⟩, 0⟩, ⟨⟨0.0, 0.0⟩, 1⟩], none⟩

theorem valid_speck : speck.settings.validate = .ok () :=
  Settings.valid_of_no_fault (by decide +kernel)

theorem reachable_speck : speck.Reachable := by
  refine ⟨speck.settings, ⟨speck.settings, #[], none⟩, [.extend speck.points.toList], ?_, ?_⟩
  · rw [new_outcome, valid_speck]
    rfl
  · have hfits : ∀ p ∈ speck.points.toList, p.fits speck.settings.rectSize = true := by
      decide +kernel
    have hextend := extend_of_fits (t := ⟨speck.settings, #[], none⟩) rfl hfits
    rw [afterAll, List.foldl_cons, List.foldl_nil, after, hextend]
    rfl

/-- The first split of the smallest region makes a cell without width. -/
theorem Sound.degenerate_of_speck {done : Tree Nat} (h : done.Sound)
    (hdone : done.isSubdivided = true) (hsettings : done.settings = speck.settings)
    (hpoints : done.points = speck.points) : ∃ n ∈ done.nodes, ¬ n.rect.minX < n.rect.maxX := by
  have hgrowth := h.growth_of_isSubdivided hdone
  obtain ⟨root, hroot, hbare⟩ := hgrowth.first
  have hmany : root.bare.points.size = 2 := by
    rw [hbare, undivided, hpoints]
    rfl
  have hkey : root.key = Key.root := congrArg Node.key hbare
  have hrect : root.rect = Rect.square speck.settings.rectSize := by
    rw [← hsettings]
    exact congrArg Node.rect hbare
  cases hkids : root.children with
  | none =>
      rcases hgrowth.stopped hroot hkids List.not_mem_nil with hfew | hdeep
      · rw [hsettings] at hfew
        exact absurd (hmany.ge.trans hfew) (by decide)
      · rw [hsettings, hkey] at hdeep
        exact absurd hdeep (by decide)
  | some kids =>
      obtain ⟨c, hc, hchild⟩ := hgrowth.child hroot hkids .bottomLeft
      refine ⟨c, Array.mem_of_getElem? hc, ?_⟩
      have hquadrant : c.rect = root.rect.quadrant .bottomLeft := (Node.childIn_parts hchild).2.1
      rw [hquadrant, hrect]
      decide +kernel

/-- **Settings are not refused for a region that is too small for their depth limit.**  The first
split of the smallest region makes cells without width. -/
theorem degenerate_speck :
    speck.settings.validate = .ok () ∧ speck.Reachable ∧ speck.isSubdivided = false ∧
      ∃ done, speck.subdivide.outcome = .ok done ∧
        ∃ n ∈ done.nodes, ¬ (n.rect.minX < n.rect.maxX ∧ n.rect.minY < n.rect.maxY) := by
  have hsound := Sound.of_reachable reachable_speck
  obtain ⟨s, -, -, houtcome⟩ := subdivide_of_sound hsound rfl
  obtain ⟨hdone, hsubdivided⟩ := hsound.subdivided houtcome
  obtain ⟨n, hn, hflat⟩ := hdone.degenerate_of_speck hsubdivided rfl rfl
  exact ⟨valid_speck, reachable_speck, rfl, _, houtcome, n, hn, fun hwide => hflat hwide.1⟩

end Tree

end QuadCode
