import QuadCode.Proofs.Token.Filling

/-!
# What encoders come to

Apart from the notices it leaves, an encoder does no more than place its entities, view by view, and
take the codes of the places.  What the views of a cloud look like is up to the geometry of the
plane: where the centroid lies, where a rotation takes a cloud, and which bounds it has.  Hardly
anything about it matters for the codes, so here a `Geometry` is anything that finds a centroid and
bounds for all clouds but the empty one and turns every location of a cloud.

Main definitions:

* `LocationEncoder.encodeIn`: what an encoder of locations comes to in a geometry;
* `WindowEncoder.scaling`: the map of times onto the region.

Main statements:

* `LocationEncoder.encode_outcome` and `WindowEncoder.encode_outcome`: that is what they come to.
-/

namespace QuadCode

namespace Logged

variable {α β : Type}

/-- What a run over a list comes to is a run over what it comes to at each item. -/
theorem outcome_mapM (f : α → Logged β) (xs : List α) :
    (xs.mapM f).outcome = xs.mapM fun x => (f x).outcome := by
  induction xs with
  | nil => rfl
  | cons x xs ih =>
      rw [List.mapM_cons, List.mapM_cons, outcome_bind]
      simp only [outcome_bind, ih]
      rfl

end Logged

section

variable {α β : Type} {f : α → Except Error β} {xs : List α}

/-- A run over a list succeeds if it does at each item, and gives what it gives there. -/
theorem mapM_eq_ok_iff {ys : List β} :
    xs.mapM f = .ok ys ↔ List.Forall₂ (fun x y => f x = .ok y) xs ys := by
  have hlogged : (xs.mapM fun x => Logged.ofExcept (f x)).outcome = .ok ys ↔
      List.Forall₂ (fun x y => f x = .ok y) xs ys := Logged.outcome_mapM_eq_ok_iff
  rwa [Logged.outcome_mapM] at hlogged

/-- In a run that succeeds, each item has a result. -/
theorem exists_ok_of_mapM {ys : List β} (h : xs.mapM f = .ok ys) {x : α} (hx : x ∈ xs) :
    ∃ y, f x = .ok y := by
  obtain ⟨hlength, hpairs⟩ := List.forall₂_iff_get.mp (mapM_eq_ok_iff.mp h)
  obtain ⟨i, rfl⟩ := List.mem_iff_get.mp hx
  exact ⟨_, hpairs i i.isLt (lt_of_lt_of_eq i.isLt hlength)⟩

/-- In a run that succeeds, each result is that of an item. -/
theorem exists_source_of_mapM {ys : List β} (h : xs.mapM f = .ok ys) {y : β} (hy : y ∈ ys) :
    ∃ x ∈ xs, f x = .ok y := by
  obtain ⟨hlength, hpairs⟩ := List.forall₂_iff_get.mp (mapM_eq_ok_iff.mp h)
  obtain ⟨i, rfl⟩ := List.mem_iff_get.mp hy
  have hi : i < xs.length := lt_of_lt_of_eq i.isLt hlength.symm
  exact ⟨xs.get ⟨i, hi⟩, xs.get_mem ⟨i, hi⟩, hpairs i hi i.isLt⟩

/-- A run over a list fails as it does at some item. -/
theorem exists_error_of_mapM {e : Error} (h : xs.mapM f = .error e) : ∃ x ∈ xs, f x = .error e := by
  induction xs with
  | nil => cases h
  | cons x rest ih =>
      rw [List.mapM_cons] at h
      cases hx : f x with
      | error e' =>
          rw [hx] at h
          cases h
          exact ⟨x, List.mem_cons_self, hx⟩
      | ok y =>
          rw [hx] at h
          cases hrest : rest.mapM f with
          | error e' =>
              change (rest.mapM f >>= _) = _ at h
              rw [hrest] at h
              cases h
              obtain ⟨x', hmem, hx'⟩ := ih hrest
              exact ⟨x', List.mem_cons_of_mem _ hmem, hx'⟩
          | ok ys =>
              change (rest.mapM f >>= _) = _ at h
              rw [hrest] at h
              cases h

end

/-- The geometry of the plane, as far as views need it. -/
structure Geometry where
  centroid : List Location → Option Location
  /-- The cloud rotated about a centre by an angle in degrees. -/
  turn : Location → Float → List Location → List Location
  bounds : List Location → Option Rect
  centroid_eq_none_iff : ∀ cloud, centroid cloud = none ↔ cloud = []
  length_turn : ∀ center angle cloud, (turn center angle cloud).length = cloud.length
  bounds_eq_none_iff : ∀ cloud, bounds cloud = none ↔ cloud = []

/-- The plane with a rotation for each centre and angle. -/
def Geometry.turnedBy (rotation : Location → Float → Rotation) : Geometry where
  centroid := QuadCode.centroid
  turn center angle cloud := cloud.map (rotation center angle).apply
  bounds := boundingRect
  centroid_eq_none_iff _ := QuadCode.centroid_eq_none_iff
  length_turn _ _ _ := List.length_map _
  bounds_eq_none_iff _ := boundingRect_eq_none_iff

/-- The geometry that encoders go by. -/
def Geometry.plane : Geometry :=
  .turnedBy Rotation.ofDegrees

namespace LocationEncoder

/-- The places of a cloud in the view from an angle: the turned cloud, fitted into the region. -/
def placesIn (g : Geometry) (e : LocationEncoder) (cloud : List Location) (center : Location)
    (angle : Float) : List Location :=
  let turned := g.turn center angle cloud
  match g.bounds turned with
  | none => []
  | some bounds => fitInto e.settings.rectSize bounds (e.fit.extents bounds) turned

/-- What the encoder comes to in a geometry. -/
def encodeIn (g : Geometry) (e : LocationEncoder) (cloud : List Location) :
    Except Error Encoding :=
  match cloud.find? fun l => !l.isFinite with
  | some l => .error (.outOfBounds l.x l.y e.settings.rectSize)
  | none =>
    match g.centroid cloud with
    | none => .ok ⟨e.angles.map fun _ => ∅⟩
    | some center => do
      let views ← e.angles.mapM fun angle =>
        Tree.codesOf e.settings e.shift (e.placesIn g cloud center angle)
      return ⟨views⟩

/-- Each location has a place in each view. -/
theorem length_placesIn (g : Geometry) (e : LocationEncoder) (cloud : List Location)
    (center : Location) (angle : Float) :
    (e.placesIn g cloud center angle).length = cloud.length := by
  rw [← g.length_turn center angle cloud, placesIn]
  cases hbounds : g.bounds (g.turn center angle cloud) with
  | none => rw [(g.bounds_eq_none_iff _).mp hbounds]
  | some bounds => exact List.length_map _

/-- The places of a view are clamped. -/
theorem clamped_placesIn {g : Geometry} {e : LocationEncoder} {cloud : List Location}
    {center : Location} {angle : Float} {place : Location}
    (h : place ∈ e.placesIn g cloud center angle) : Clamped e.settings.rectSize place := by
  unfold placesIn at h
  dsimp only at h
  split at h
  · cases h
  · obtain ⟨l, -, rfl⟩ := List.mem_map.mp h
    exact ⟨_, _, rfl⟩

/-- A view gives the codes of its places. -/
theorem view_outcome (e : LocationEncoder) (cloud : List Location) (center : Location)
    (angle : Float) : (e.view cloud center angle).outcome =
      Tree.codesOf e.settings e.shift (e.placesIn .plane cloud center angle) := by
  have hfitted : (e.fitted (cloud.map (Rotation.ofDegrees center angle).apply)).outcome =
      .ok (e.placesIn .plane cloud center angle) := by
    unfold fitted placesIn Geometry.plane Geometry.turnedBy
    dsimp only
    cases boundingRect (cloud.map (Rotation.ofDegrees center angle).apply) with
    | none => rfl
    | some bounds =>
        dsimp only
        by_cases hnone : coincide (e.fit.extents bounds) = true
        · rw [if_pos hnone]
          rfl
        · rw [if_neg hnone]
          rfl
  unfold view Tree.codesOf
  simp only [Logged.outcome_bind, hfitted]
  rfl

/-- **What an encoder of locations comes to.** -/
theorem encode_outcome (e : LocationEncoder) (cloud : List Location) :
    (e.encode cloud).outcome = e.encodeIn .plane cloud := by
  unfold encode encodeIn
  cases cloud.find? fun l => !l.isFinite with
  | some l => rfl
  | none =>
      change Logged.outcome (match QuadCode.centroid cloud with | none => _ | some center => _) =
        match QuadCode.centroid cloud with | none => _ | some center => _
      cases QuadCode.centroid cloud with
      | none => rfl
      | some center =>
          dsimp only
          simp only [Logged.outcome_bind, Logged.outcome_mapM, view_outcome]
          rfl

/-- Every view consists of the codes of some places, or is empty. -/
theorem codesOf_of_mem_views {g : Geometry} {e : LocationEncoder} {cloud : List Location}
    {encoding : Encoding} (h : e.encodeIn g cloud = .ok encoding) {view : CodeMap}
    (hview : view ∈ encoding.views) :
    view = ∅ ∨ ∃ places, Tree.codesOf e.settings e.shift places = .ok view := by
  unfold encodeIn at h
  split at h
  · cases h
  · split at h
    · cases h
      obtain ⟨angle, -, rfl⟩ := List.mem_map.mp hview
      exact Or.inl rfl
    · rename_i center _
      right
      cases hviews : e.angles.mapM fun angle =>
          Tree.codesOf e.settings e.shift (e.placesIn g cloud center angle) with
      | error err =>
          rw [hviews] at h
          cases h
      | ok views =>
          rw [hviews] at h
          cases h
          obtain ⟨angle, -, hcodes⟩ := exists_source_of_mapM hviews hview
          exact ⟨_, hcodes⟩

end LocationEncoder

namespace WindowEncoder

/-- The map of times onto the region. -/
def scaling (e : WindowEncoder) (windows : List Window) : TimeMap :=
  match e.scale with
  | .horizon length => ⟨0.0, e.settings.rectSize / length⟩
  | .observed =>
    let (earliest, latest) := observedRange windows
    if windows.isEmpty then ⟨0.0, 1.0⟩
    else if latest ≤ earliest then ⟨earliest, 0.0⟩
    else ⟨earliest, e.settings.rectSize / (latest - earliest)⟩

/-- The places of some windows. -/
def places (e : WindowEncoder) (windows : List Window) : List Location :=
  windows.map fun w => ⟨e.place (e.scaling windows) w.start, e.place (e.scaling windows) w.finish⟩

theorem timeMap_outcome (e : WindowEncoder) (windows : List Window) :
    (e.timeMap windows).outcome = .ok (e.scaling windows) := by
  unfold timeMap scaling
  cases e.scale with
  | horizon length => rfl
  | observed =>
      dsimp only
      split_ifs <;> rfl

/-- **What an encoder of windows comes to.** -/
theorem encode_outcome (e : WindowEncoder) (windows : List Window) :
    (e.encode windows).outcome =
      match windows.find? fun w => !w.isFinite with
      | some w => .error (.outOfBounds w.start w.finish e.settings.rectSize)
      | none => do
        let codes ← Tree.codesOf e.settings e.shift (e.places windows)
        return ⟨[codes]⟩ := by
  unfold encode
  cases windows.find? fun w => !w.isFinite with
  | some w => rfl
  | none =>
      simp only [Logged.outcome_bind, timeMap_outcome, Tree.codesOf, bind_assoc]
      rfl

/-- Every view consists of the codes of some places. -/
theorem codesOf_of_mem_views {e : WindowEncoder} {windows : List Window} {encoding : Encoding}
    (h : (e.encode windows).outcome = .ok encoding) {view : CodeMap}
    (hview : view ∈ encoding.views) :
    ∃ places, Tree.codesOf e.settings e.shift places = .ok view := by
  rw [encode_outcome] at h
  split at h
  · cases h
  · cases hcodes : Tree.codesOf e.settings e.shift (e.places windows) with
    | error err =>
        rw [hcodes] at h
        cases h
    | ok codes =>
        rw [hcodes] at h
        cases h
        rw [List.mem_singleton.mp hview]
        exact ⟨_, hcodes⟩

end WindowEncoder

end QuadCode
