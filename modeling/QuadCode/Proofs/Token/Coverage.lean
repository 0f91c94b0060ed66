import QuadCode.Proofs.Token.Outcomes

/-!
# Every location has a token in every view

A cloud of locations is refused if a coordinate is not finite, or if a view has a place that is not
a number.  Nothing else can go wrong: whatever the geometry makes of the cloud, the places of a view
are clamped to the region, so the tree accepts them if they are numbers, and subdivision and reading
then give each location a code.  The views have nothing to do with each other.

Main statements:

* `encodeIn_of_refused` and `encodeIn_of_clear`: which clouds are encoded;
* `covers_of_ofAngles`: the tokens of a cloud, in any geometry.
-/

namespace QuadCode

/-- The tokens of an entity that has a code in each view are as many as the views. -/
theorem Encoding.length_tokens {encoding : Encoding} {entity : ℕ}
    (h : ∀ view ∈ encoding.views, view[entity]?.isSome = true) :
    (encoding.tokens entity).length = encoding.viewCount :=
  List.filterMap_length_eq_length.mpr h

namespace LocationEncoder

variable {g : Geometry} {e : LocationEncoder} {cloud : List Location}

/-- Some view of the cloud has a place that is not a number. -/
def Blind (g : Geometry) (e : LocationEncoder) (cloud : List Location) : Prop :=
  ∃ center, g.centroid cloud = some center ∧ ∃ angle ∈ e.angles,
    ∃ place ∈ e.placesIn g cloud center angle, place.isNaN = true

/-- A view without places that are not numbers has codes. -/
theorem codesOf_placesIn (hvalid : e.settings.validate = .ok ()) {center : Location}
    {angle : Float} (h : ∀ place ∈ e.placesIn g cloud center angle, place.isNaN = false) :
    ∃ codes, Tree.codesOf e.settings e.shift (e.placesIn g cloud center angle) = .ok codes := by
  apply Tree.codesOf_of_fits hvalid e.shift
  intro place hplace
  rw [(clamped_placesIn hplace).fits_iff (Settings.proper_of_valid hvalid).x]
  exact h place hplace

/-- The codes of a view fail in one way only. -/
theorem outOfBounds_of_codesOf (hvalid : e.settings.validate = .ok ()) {places : List Location}
    {err : Error} (h : Tree.codesOf e.settings e.shift places = .error err) :
    ∃ place ∈ places, err = .outOfBounds place.x place.y e.settings.rectSize := by
  by_cases hfits : ∀ place ∈ places, place.fits e.settings.rectSize = true
  · obtain ⟨codes, hcodes⟩ := Tree.codesOf_of_fits hvalid e.shift hfits
    rw [h] at hcodes
    cases hcodes
  · push Not at hfits
    obtain ⟨place, hplace, hmisfit⟩ := hfits
    obtain ⟨place', hplace', -, hcodes⟩ :=
      Tree.codesOf_of_not_fits hvalid e.shift hplace hmisfit
    rw [h] at hcodes
    exact ⟨place', hplace', Except.error.inj hcodes⟩

/-- A view with a place that is not a number has no codes. -/
theorem not_codesOf_placesIn (hvalid : e.settings.validate = .ok ()) {center : Location}
    {angle : Float} {place : Location} (hplace : place ∈ e.placesIn g cloud center angle)
    (hnan : place.isNaN = true) {codes : CodeMap} :
    Tree.codesOf e.settings e.shift (e.placesIn g cloud center angle) ≠ .ok codes := by
  have hmisfit : ¬ place.fits e.settings.rectSize = true := by
    rw [(clamped_placesIn hplace).fits_iff (Settings.proper_of_valid hvalid).x, hnan]
    exact Bool.noConfusion
  obtain ⟨place', -, -, hrefused⟩ := Tree.codesOf_of_not_fits hvalid e.shift hplace hmisfit
  rw [hrefused]
  exact nofun

/-- A cloud is refused if a coordinate is not finite or a view is blind. -/
theorem encodeIn_of_refused (hvalid : e.settings.validate = .ok ())
    (h : (∃ l ∈ cloud, l.isFinite = false) ∨ Blind g e cloud) :
    ∃ place : Location,
      e.encodeIn g cloud = .error (.outOfBounds place.x place.y e.settings.rectSize) := by
  unfold encodeIn
  cases hfind : cloud.find? fun l => !l.isFinite with
  | some l => exact ⟨l, rfl⟩
  | none =>
      have hblind : Blind g e cloud := by
        refine h.resolve_left ?_
        rintro ⟨l, hl, hinfinite⟩
        have hfinite := List.find?_eq_none.mp hfind l hl
        rw [hinfinite] at hfinite
        exact hfinite rfl
      obtain ⟨center, hcenter, angle, hangle, place, hplace, hnan⟩ := hblind
      rw [hcenter]
      dsimp only
      cases hviews : e.angles.mapM fun angle =>
          Tree.codesOf e.settings e.shift (e.placesIn g cloud center angle) with
      | error err =>
          obtain ⟨angle', -, hcodes⟩ := exists_error_of_mapM hviews
          obtain ⟨place', -, rfl⟩ := outOfBounds_of_codesOf hvalid hcodes
          exact ⟨place', rfl⟩
      | ok views =>
          obtain ⟨codes, hcodes⟩ := exists_ok_of_mapM hviews hangle
          exact absurd hcodes (not_codesOf_placesIn hvalid hplace hnan)

/-- Any other cloud is encoded: each view has a code for each location, and it is the view of an
encoder with one angle alone. -/
theorem encodeIn_of_clear (hvalid : e.settings.validate = .ok ())
    (h : ¬ ((∃ l ∈ cloud, l.isFinite = false) ∨ Blind g e cloud)) :
    ∃ views, e.encodeIn g cloud = .ok ⟨views⟩ ∧ List.Forall₂ (fun angle view =>
      view.IsView e.settings e.shift cloud.length ∧
        { e with angles := [angle] }.encodeIn g cloud = .ok ⟨[view]⟩) e.angles views := by
  obtain ⟨hfinite, hclear⟩ := not_or.mp h
  have hnone : (cloud.find? fun l => !l.isFinite) = none := by
    rw [List.find?_eq_none]
    intro l hl hinfinite
    exact hfinite ⟨l, hl, by simpa using hinfinite⟩
  unfold encodeIn
  rw [hnone]
  dsimp only
  cases hcenter : g.centroid cloud with
  | none =>
      have hempty := (g.centroid_eq_none_iff cloud).mp hcenter
      subst hempty
      refine ⟨e.angles.map fun _ => ∅, rfl, ?_⟩
      rw [List.forall₂_map_right_iff, List.forall₂_same]
      exact fun angle _ => ⟨isView_empty _ _, rfl⟩
  | some center =>
      dsimp only
      have hclear : ∀ angle ∈ e.angles, ∃ codes,
          Tree.codesOf e.settings e.shift (e.placesIn g cloud center angle) = .ok codes := by
        intro angle hangle
        apply codesOf_placesIn hvalid
        intro place hplace
        exact Bool.eq_false_iff.mpr fun hnan =>
          hclear ⟨center, hcenter, angle, hangle, place, hplace, hnan⟩
      cases hviews : e.angles.mapM fun angle =>
          Tree.codesOf e.settings e.shift (e.placesIn g cloud center angle) with
      | error err =>
          obtain ⟨angle, hangle, hfailed⟩ := exists_error_of_mapM hviews
          obtain ⟨codes, hcodes⟩ := hclear angle hangle
          rw [hfailed] at hcodes
          cases hcodes
      | ok views =>
          refine ⟨views, rfl, (mapM_eq_ok_iff.mp hviews).imp ?_⟩
          intro angle view hview
          have hcodes := Tree.isView_of_codesOf hview
          rw [length_placesIn] at hcodes
          refine ⟨hcodes, ?_⟩
          have hsingle : List.mapM (fun angle =>
              Tree.codesOf e.settings e.shift (e.placesIn g cloud center angle)) [angle] =
                .ok [view] := mapM_eq_ok_iff.mpr (.cons hview .nil)
          change (List.mapM (fun angle => Tree.codesOf e.settings e.shift
            (e.placesIn g cloud center angle)) [angle] >>= _) = _
          rw [hsingle]
          rfl

/-- An encoder is made of valid settings and finite angles, of which there has to be one. -/
theorem ofAngles_eq_ok_iff {settings : Settings} {angles : List Float} {base : LocationEncoder} :
    ofAngles settings angles = .ok base ↔ settings.validate = .ok () ∧ angles ≠ [] ∧
      (∀ angle ∈ angles, angle.isFinite = true) ∧ base = { settings, angles } := by
  unfold ofAngles
  cases settings.validate with
  | error e => simp [bind, Except.bind]
  | ok u =>
      cases angles with
      | nil => simp [bind, Except.bind, throw, throwThe, MonadExceptOf.throw]
      | cons angle rest =>
          cases hfind : (angle :: rest).find? fun angle => !angle.isFinite with
          | some angle' =>
              have hmem := List.mem_of_find?_eq_some hfind
              have hinfinite := List.find?_some hfind
              constructor
              · intro h
                cases h
              · intro h
                rw [h.2.2.1 angle' hmem] at hinfinite
                cases hinfinite
          | none =>
              have hfinite := List.find?_eq_none.mp hfind
              constructor
              · intro h
                refine ⟨rfl, List.cons_ne_nil _ _, ?_, (Except.ok.inj h).symm⟩
                intro angle' hmem
                simpa using hfinite angle' hmem
              · intro h
                rw [h.2.2.2]
                rfl

/-- What the tokens of a cloud are.  It is refused if a coordinate is not finite or a view is blind;
otherwise there is a view for each angle, each view has a code for each location and for no other
entity, and it is the only view of the encoder that is made with its angle alone. -/
structure Covers (g : Geometry) (e : LocationEncoder) (cloud : List Location) : Prop where
  refused_iff : (∃ x y size, e.encodeIn g cloud = .error (.outOfBounds x y size)) ↔
    (∃ l ∈ cloud, l.isFinite = false) ∨ Blind g e cloud
  encoded : ¬ ((∃ l ∈ cloud, l.isFinite = false) ∨ Blind g e cloud) →
    ∃ encoding, e.encodeIn g cloud = .ok encoding ∧ encoding.viewCount = e.angles.length ∧
      (∀ view ∈ encoding.views, ∀ entity : ℕ, view[entity]?.isSome = true ↔ entity < cloud.length) ∧
      (∀ entity < cloud.length, (encoding.tokens entity).length = e.angles.length) ∧
      ∀ (i : ℕ) (angle : Float), e.angles[i]? = some angle → ∃ view alone,
        encoding.view? i = some view ∧ ofAngles e.settings [angle] = .ok alone ∧
          { alone with fit := e.fit, shift := e.shift }.encodeIn g cloud = .ok ⟨[view]⟩

/-- **Every location has a token in every view**, unless the cloud is refused; in the geometry of
the plane, and in any other. -/
theorem covers_of_ofAngles {settings : Settings} {angles : List Float} {base : LocationEncoder}
    (hbase : ofAngles settings angles = .ok base) (fit : Fit) (shift : Shift)
    (cloud : List Location) :
    (∀ g : Geometry, Covers g { base with fit, shift } cloud) ∧
      ∀ e : LocationEncoder, (e.encode cloud).outcome = e.encodeIn .plane cloud := by
  refine ⟨?_, fun e => e.encode_outcome cloud⟩
  intro g
  obtain ⟨hvalid, -, hangles, rfl⟩ := ofAngles_eq_ok_iff.mp hbase
  dsimp only
  generalize he : ({ settings, angles, fit, shift } : LocationEncoder) = e
  have hvalid : e.settings.validate = .ok () := by rw [← he]; exact hvalid
  have hangles : ∀ angle ∈ e.angles, angle.isFinite = true := by rw [← he]; exact hangles
  constructor
  · constructor
    · intro h
      by_contra hclear
      obtain ⟨x, y, size, hrefused⟩ := h
      obtain ⟨views, hviews, -⟩ := encodeIn_of_clear hvalid hclear
      rw [hrefused] at hviews
      cases hviews
    · intro h
      obtain ⟨place, hrefused⟩ := encodeIn_of_refused hvalid h
      exact ⟨_, _, _, hrefused⟩
  · intro h
    obtain ⟨views, hviews, hpairs⟩ := encodeIn_of_clear hvalid h
    obtain ⟨hlength, hget⟩ := List.forall₂_iff_get.mp hpairs
    have hentities : ∀ view ∈ views, ∀ entity : ℕ,
        view[entity]?.isSome = true ↔ entity < cloud.length := by
      intro view hview
      obtain ⟨i, rfl⟩ := List.mem_iff_get.mp hview
      exact (hget i (lt_of_lt_of_eq i.isLt hlength.symm) i.isLt).1.entities
    refine ⟨⟨views⟩, hviews, hlength.symm, hentities, ?_, ?_⟩
    · intro entity hentity
      rw [hlength]
      exact Encoding.length_tokens fun view hview => (hentities view hview entity).mpr hentity
    · intro i angle hangle
      obtain ⟨hi, rfl⟩ := List.getElem?_eq_some_iff.mp hangle
      have hi' : i < views.length := hlength ▸ hi
      have hfinite := hangles _ (List.getElem_mem hi)
      refine ⟨views.get ⟨i, hi'⟩, { settings := e.settings, angles := [e.angles.get ⟨i, hi⟩] },
        List.getElem?_eq_getElem hi', ?_, (hget i hi hi').2⟩
      exact ofAngles_eq_ok_iff.mpr ⟨hvalid, List.cons_ne_nil _ _, by simpa using hfinite, rfl⟩

/-- The plane as it turns by zero and by 45 degrees, with the sines and the cosines of these angles
written out.  Rounding makes the sine and the cosine of 45 degrees two different doubles. -/
def eighthTurn : Geometry :=
  .turnedBy fun center angle =>
    if angle == 45.0 then .about center 0.7071067811865475 0.7071067811865476
    else .about center 0.0 1.0

/-- Three locations, two of which coincide, seen straight and after an eighth of a turn. -/
theorem covers_eighthTurn :
    let e : LocationEncoder := { settings := {}, angles := [0.0, 45.0] }
    let cloud : List Location := [⟨-1.0, 0.5⟩, ⟨3.0, 2.0⟩, ⟨-1.0, 0.5⟩]
    ofAngles {} [0.0, 45.0] = .ok e ∧ Covers eighthTurn e cloud ∧
      (e.encode cloud).outcome = e.encodeIn .plane cloud ∧
        ∃ encoding, e.encodeIn eighthTurn cloud = .ok encoding ∧ encoding.viewCount = 2 := by
  intro e cloud
  have hbase : ofAngles {} [0.0, 45.0] = .ok e :=
    ofAngles_eq_ok_iff.mpr ⟨rfl, List.cons_ne_nil _ _, by decide +kernel, rfl⟩
  obtain ⟨hcovers, hplane⟩ := covers_of_ofAngles hbase .perAxis .identity cloud
  have hclear : ¬ ((∃ l ∈ cloud, l.isFinite = false) ∨ Blind eighthTurn e cloud) := by
    intro hrefused
    rcases hrefused with hinfinite | hblind
    · obtain ⟨l, hl, hinfinite⟩ := hinfinite
      have hfinite : ∀ l ∈ cloud, l.isFinite = true := by decide +kernel
      rw [hfinite l hl] at hinfinite
      cases hinfinite
    · obtain ⟨center, hcenter, angle, hangle, place, hplace, hnan⟩ := hblind
      have hnumbers : ∀ center ∈ eighthTurn.centroid cloud, ∀ angle ∈ e.angles,
          ∀ place ∈ e.placesIn eighthTurn cloud center angle, place.isNaN = false := by
        decide +kernel
      rw [hnumbers center hcenter angle hangle place hplace] at hnan
      cases hnan
  obtain ⟨encoding, hencoding, hviews, -⟩ := (hcovers eighthTurn).encoded hclear
  exact ⟨hbase, hcovers eighthTurn, hplane e, encoding, hencoding, hviews⟩

end LocationEncoder

end QuadCode
