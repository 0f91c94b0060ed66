import QuadCode.Proofs.Token.Views

/-!
# Filling a tree with places

Both encoders end in the same way: they make a tree of their settings, fill it with one place for
each entity, subdivide it and read its codes.  The tree refuses a place that lies outside its
region.  A place that was clamped to the region lies in it unless it is not a number, so of clamped
places the tree refuses only those.

Main statements:

* `Clamped.fits_iff`: which clamped places fit;
* `codesOf_of_fits` and `codesOf_of_not_fits`: what comes of places that fit, and of others.
-/

namespace QuadCode

open Double

/-- Whether a coordinate is not a number. -/
def Location.isNaN (l : Location) : Bool :=
  l.x.isNaN || l.y.isNaN

/-- Whether the tree for a region accepts a place. -/
def Location.fits (size : Float) (l : Location) : Bool :=
  (Point.ofLocation l 0).fits size

section

variable {size value : Float}

/-- Clamping keeps numbers numbers, and what is not a number as it is. -/
theorem isNaN_clampTo (hsize : size.isFinite = true) :
    (clampTo size value).isNaN = value.isNaN := by
  have hnumber := (isFinite_iff.mp hsize).1
  have hzero : (0.0 : Float).isNaN = false := by decide
  cases hvalue : value.isNaN with
  | true =>
      have hbelow : ¬ value < 0.0 := by
        intro hlt
        rw [(lt_iff.mp hlt).1] at hvalue
        cases hvalue
      have habove : ¬ size < value := by
        intro hlt
        rw [(lt_iff.mp hlt).2.1] at hvalue
        cases hvalue
      rw [clampTo, if_neg hbelow]
      exact (if_neg habove ▸ hvalue)
  | false =>
      unfold clampTo
      dsimp only
      split_ifs <;> assumption

/-- A number that was clamped lies between the bounds. -/
theorem clampTo_bounds (hspan : Rect.Span 0.0 size) (hvalue : value.isNaN = false) :
    0.0 ≤ clampTo size value ∧ clampTo size value ≤ size := by
  have hpos := hspan.ordered
  obtain ⟨hzero, hnumber, -⟩ := le_iff.mp hpos
  have hself : size ≤ size := le_iff.mpr ⟨hnumber, hnumber, le_rfl⟩
  unfold clampTo
  dsimp only
  by_cases hbelow : value < 0.0
  · rw [if_pos hbelow, if_neg (not_lt_of_le hpos)]
    exact ⟨le_iff.mpr ⟨hzero, hzero, le_rfl⟩, hpos⟩
  · rw [if_neg hbelow]
    have hlow := (lt_or_le hvalue hzero).resolve_left hbelow
    by_cases habove : size < value
    · rw [if_pos habove]
      exact ⟨hpos, hself⟩
    · rw [if_neg habove]
      exact ⟨hlow, (lt_or_le hnumber hvalue).resolve_left habove⟩

/-- A place fits if its coordinates are finite and lie between the bounds. -/
theorem Location.fits_iff {l : Location} :
    l.fits size = true ↔ (l.x.isFinite = true ∧ 0.0 ≤ l.x ∧ l.x ≤ size) ∧
      l.y.isFinite = true ∧ 0.0 ≤ l.y ∧ l.y ≤ size := by
  unfold fits Point.fits
  simp only [Bool.and_eq_true]
  constructor
  · intro h
    obtain ⟨⟨⟨hx, hy⟩, hxs⟩, hys⟩ := h
    exact ⟨⟨hx, of_decide_eq_true hxs.1, of_decide_eq_true hxs.2⟩, hy, of_decide_eq_true hys.1,
      of_decide_eq_true hys.2⟩
  · intro h
    obtain ⟨⟨hx, hxs⟩, hy, hys⟩ := h
    exact ⟨⟨⟨hx, hy⟩, decide_eq_true hxs.1, decide_eq_true hxs.2⟩, decide_eq_true hys.1,
      decide_eq_true hys.2⟩

/-- A place that was clamped to a region. -/
def Clamped (size : Float) (place : Location) : Prop :=
  ∃ x y, place = ⟨clampTo size x, clampTo size y⟩

/-- A clamped place fits unless a coordinate is not a number. -/
theorem Clamped.fits_iff {place : Location} (h : Clamped size place) (hspan : Rect.Span 0.0 size) :
    place.fits size = true ↔ place.isNaN = false := by
  obtain ⟨x, y, rfl⟩ := h
  have haxis : ∀ value, ((clampTo size value).isFinite = true ∧ 0.0 ≤ clampTo size value ∧
      clampTo size value ≤ size) ↔ (clampTo size value).isNaN = false := by
    intro value
    constructor
    · exact fun hfin => (isFinite_iff.mp hfin.1).1
    · intro hnumber
      rw [isNaN_clampTo hspan.finite] at hnumber
      obtain ⟨hlow, hhigh⟩ := clampTo_bounds hspan hnumber
      exact ⟨isFinite_of_le hlow hhigh hspan.finite, hlow, hhigh⟩
  rw [Location.fits_iff, Location.isNaN, Bool.or_eq_false_iff]
  exact and_congr (haxis x) (haxis y)

end

namespace Tree

variable {settings : Settings} {shift : Shift} {places : List Location}

/-- The codes of some places: those of a new tree that is filled with them and subdivided. -/
def codesOf (settings : Settings) (shift : Shift) (places : List Location) :
    Except Error CodeMap := do
  let empty ← (Tree.new settings : Logged (Tree Nat)).outcome
  let tree ← (empty.subdividedWith places).outcome
  tree.codes settings.rectSize shift

/-- Valid settings make an empty tree. -/
theorem outcome_new (hvalid : settings.validate = .ok ()) :
    (Tree.new settings : Logged (Tree Nat)).outcome = .ok ⟨settings, #[], none⟩ := by
  rw [new_outcome, hvalid]
  rfl

/-- The tree is made, filled and read, each with success. -/
theorem codesOf_eq_ok_iff {codes : CodeMap} :
    codesOf settings shift places = .ok codes ↔
      ∃ empty tree : Tree Nat, (Tree.new settings).outcome = .ok empty ∧
        (empty.subdividedWith places).outcome = .ok tree ∧
          tree.codes settings.rectSize shift = .ok codes := by
  unfold codesOf
  cases (Tree.new settings : Logged (Tree Nat)).outcome with
  | error e => simp [bind, Except.bind]
  | ok empty =>
      cases htree : (empty.subdividedWith places).outcome with
      | error e => simp [bind, Except.bind, htree]
      | ok tree => simp [bind, Except.bind, htree]

/-- There is a code for each place. -/
theorem isView_of_codesOf {codes : CodeMap} (h : codesOf settings shift places = .ok codes) :
    codes.IsView settings shift places.length := by
  obtain ⟨empty, tree, hempty, htree, hcodes⟩ := codesOf_eq_ok_iff.mp h
  exact isView_codes hempty htree hcodes

/-- Places that fit have codes. -/
theorem codesOf_of_fits (hvalid : settings.validate = .ok ()) (shift : Shift)
    (hfits : ∀ place ∈ places, place.fits settings.rectSize = true) :
    ∃ codes, codesOf settings shift places = .ok codes := by
  have hempty : (Tree.new settings : Logged (Tree Nat)).outcome = _ := outcome_new hvalid
  obtain ⟨tree, codes, htree, hcodes⟩ := exists_codes hempty hfits shift
  exact ⟨codes, codesOf_eq_ok_iff.mpr ⟨_, tree, hempty, htree, hcodes⟩⟩

/-- Some place that does not fit is the reason why there are no codes. -/
theorem codesOf_of_not_fits (hvalid : settings.validate = .ok ()) (shift : Shift)
    {place : Location} (hmem : place ∈ places) (hplace : ¬ place.fits settings.rectSize = true) :
    ∃ place ∈ places, ¬ place.fits settings.rectSize = true ∧
      codesOf settings shift places =
        .error (.outOfBounds place.x place.y settings.rectSize) := by
  rcases fits_or_exists_first settings.rectSize (entityPoints places) with
    hfits | ⟨front, p, back, hsplit, hfront, hp⟩
  · obtain ⟨i, hi⟩ := List.mem_iff_getElem?.mp hmem
    have hpoint : (entityPoints places)[i]? = some (Point.ofLocation place i) := by
      rw [getElem?_entityPoints, hi]
      rfl
    exact absurd (hfits _ (List.mem_of_getElem? hpoint)) hplace
  · have hmem : p ∈ entityPoints places := by
      rw [hsplit]
      exact List.mem_append_right _ List.mem_cons_self
    obtain ⟨⟨place', i⟩, hmem', rfl⟩ := List.mem_map.mp hmem
    refine ⟨place', List.fst_mem_of_mem_zipIdx hmem', hp, ?_⟩
    have hextend := extend_of_not_fits (t := ⟨settings, #[], none⟩) rfl hfront hp back
    have hrefused : (Tree.subdividedWith ⟨settings, #[], none⟩ places).outcome =
        .error (.outOfBounds place'.x place'.y settings.rectSize) := by
      change Logged.outcome (_ >>= _) = _
      rw [Logged.outcome_bind]
      change (Tree.extend _ (entityPoints places)).2 >>= _ = _
      rw [hsplit, hextend]
      rfl
    rw [codesOf, outcome_new hvalid]
    change (Tree.subdividedWith _ places).outcome >>= _ = _
    rw [hrefused]
    rfl

end Tree

end QuadCode
