import QuadCode.Proofs.Tree.Histories

/-!
# What a history comes to

Until a tree is subdivided an operation only puts points behind those that the tree has, and from
then on no operation changes it.  So of a whole history only the points count that were accepted
before the first subdivision, and whether there was a subdivision.  A tree consists of its settings,
its points and its nodes; the index and the stage are read off these, so trees that are equal agree
in them too.

Main statements:

* `afterAll_eq`: the tree after a history, in terms of the accepted points;
* `afterAll_of_isSubdivided`: a subdivided tree stays as it is;
* `Answers`: what each operation answers and leaves in a given stage;
* `lifecycle_of_new`: any history of an empty tree comes to adding the accepted points one by one
  and subdividing at most once.
-/

namespace QuadCode

variable {α : Type}

/-- Whether both coordinates are finite numbers between zero and the side of a region. -/
def Point.fits (side : Float) (p : Point α) : Bool :=
  p.x.isFinite && p.y.isFinite && (0.0 ≤ p.x && p.x ≤ side) && (0.0 ≤ p.y && p.y ≤ side)

/-- Why a point is refused.  The stage of the tree counts before the place of the point. -/
def Point.refusal (side : Float) (late : Bool) (p : Point α) : Error :=
  if late then .invalidState .addAfterSubdivision else .outOfBounds p.x p.y side

/-- Whether an operation is a subdivision. -/
def Step.isSubdivide : Step α → Bool
  | .subdivide => true
  | _ => false

namespace History

/-- The points that are accepted in the course of a history: in front of the first subdivision those
that fit the region, of an extension up to the first that does not. -/
def accepted (side : Float) : List (Step α) → List (Point α)
  | [] => []
  | .add p :: rest => if p.fits side then p :: accepted side rest else accepted side rest
  | .extend ps :: rest => ps.takeWhile (Point.fits side) ++ accepted side rest
  | .subdivide :: _ => []

/-- The accepted points added one by one, and one subdivision if there was any. -/
def canonical (side : Float) (history : List (Step α)) : List (Step α) :=
  (accepted side history).map .add ++ if history.any Step.isSubdivide then [.subdivide] else []

theorem fits_of_mem_accepted {side : Float} {history : List (Step α)} {p : Point α}
    (h : p ∈ accepted side history) : p.fits side = true := by
  induction history with
  | nil => cases h
  | cons step rest ih =>
      cases step with
      | add p' =>
          rw [accepted] at h
          split at h
          · rename_i hfits
            rcases List.mem_cons.mp h with rfl | h
            · exact hfits
            · exact ih h
          · exact ih h
      | extend ps =>
          rcases List.mem_append.mp h with h | h
          · exact List.all_eq_true.mp List.all_takeWhile p h
          · exact ih h
      | subdivide => cases h

/-- Points that fit are all accepted when they are added one by one. -/
theorem accepted_map_add {side : Float} {ps : List (Point α)} (h : ∀ p ∈ ps, p.fits side = true)
    (rest : List (Step α)) : accepted side (ps.map .add ++ rest) = ps ++ accepted side rest := by
  induction ps with
  | nil => rfl
  | cons p ps ih =>
      rw [List.map_cons, List.cons_append, accepted, if_pos (h p List.mem_cons_self),
        ih fun p hp => h p (List.mem_cons_of_mem _ hp), List.cons_append]

theorem accepted_canonical (side : Float) (history : List (Step α)) :
    accepted side (canonical side history) = accepted side history := by
  rw [canonical, accepted_map_add fun p hp => fits_of_mem_accepted hp]
  split <;> simp [accepted]

theorem any_canonical (side : Float) (history : List (Step α)) :
    (canonical side history).any Step.isSubdivide = history.any Step.isSubdivide := by
  have hadds : ((accepted side history).map Step.add).any Step.isSubdivide = false := by
    simp [List.any_eq_false, Step.isSubdivide]
  rw [canonical, List.any_append, hadds, Bool.false_or]
  cases history.any Step.isSubdivide <;> rfl

end History

namespace Tree

/-- The tree with more points behind those it has. -/
def withMore (t : Tree α) (ps : List (Point α)) : Tree α :=
  { t with points := t.points ++ ps }

variable {t : Tree α} {p : Point α} {ps : List (Point α)}

theorem withMore_nil (t : Tree α) : t.withMore [] = t := by
  simp [withMore]

theorem withMore_withMore (t : Tree α) (ps qs : List (Point α)) :
    (t.withMore ps).withMore qs = t.withMore (ps ++ qs) := by
  simp [withMore, ← Array.toList_inj]

theorem withMore_singleton (t : Tree α) (p : Point α) :
    t.withMore [p] = { t with points := t.points.push p } := by
  simp [withMore]

theorem admits_eq_fits (t : Tree α) (p : Point α) : t.admits p = p.fits t.settings.rectSize := by
  show (p.x.isFinite && p.y.isFinite && t.region.containsAt p.x p.y) = _
  simp only [Point.fits, Rect.containsAt, Bool.and_assoc]
  rfl

theorem add_late (h : t.isSubdivided = true) :
    t.add p = .error (.invalidState .addAfterSubdivision) := by
  rw [add, if_pos h]

theorem add_of_fits (hfresh : t.isSubdivided = false) (h : p.fits t.settings.rectSize = true) :
    t.add p = .ok (t.withMore [p], t.points.size) := by
  rw [add, hfresh, if_neg Bool.false_ne_true, admits_eq_fits, if_pos h, withMore_singleton]

theorem add_of_not_fits (hfresh : t.isSubdivided = false)
    (h : ¬ p.fits t.settings.rectSize = true) :
    t.add p = .error (.outOfBounds p.x p.y t.settings.rectSize) := by
  rw [add, hfresh, if_neg Bool.false_ne_true, admits_eq_fits, if_neg h]

/-- An extension by points that fit goes on behind them. -/
theorem extend_append (hfresh : t.isSubdivided = false)
    (h : ∀ p ∈ ps, p.fits t.settings.rectSize = true) (rest : List (Point α)) :
    t.extend (ps ++ rest) = (t.withMore ps).extend rest := by
  induction ps generalizing t with
  | nil => rw [List.nil_append, withMore_nil]
  | cons p ps ih =>
      rw [List.cons_append, extend, add_of_fits hfresh (h p List.mem_cons_self)]
      have hps := ih (t := t.withMore [p]) hfresh fun q hq => h q (List.mem_cons_of_mem _ hq)
      rw [withMore_withMore] at hps
      exact hps

/-- An extension by points that all fit adds them. -/
theorem extend_of_fits (hfresh : t.isSubdivided = false)
    (h : ∀ p ∈ ps, p.fits t.settings.rectSize = true) : t.extend ps = (t.withMore ps, .ok ()) := by
  have hend := extend_append hfresh h []
  rwa [List.append_nil] at hend

/-- An extension stops at the first point that does not fit. -/
theorem extend_of_not_fits (hfresh : t.isSubdivided = false) {front : List (Point α)}
    (hfront : ∀ q ∈ front, q.fits t.settings.rectSize = true)
    (hp : ¬ p.fits t.settings.rectSize = true) (back : List (Point α)) :
    t.extend (front ++ p :: back) =
      (t.withMore front, .error (.outOfBounds p.x p.y t.settings.rectSize)) := by
  rw [extend_append hfresh hfront, extend, add_of_not_fits (t := t.withMore front) hfresh hp]
  rfl

/-- An extension of a subdivided tree adds nothing. -/
theorem extend_late (h : t.isSubdivided = true) (p : Point α) (rest : List (Point α)) :
    t.extend (p :: rest) = (t, .error (.invalidState .addAfterSubdivision)) := by
  rw [extend, add_late h]

/-- Either all the points fit, or there is a first one that does not. -/
theorem fits_or_exists_first (side : Float) (ps : List (Point α)) :
    (∀ p ∈ ps, p.fits side = true) ∨
      ∃ front p back, ps = front ++ p :: back ∧ (∀ q ∈ front, q.fits side = true) ∧
        ¬ p.fits side = true := by
  cases hfind : ps.find? fun p => !p.fits side with
  | none =>
      left
      simpa using hfind
  | some p =>
      right
      obtain ⟨hp, front, back, rfl, hfront⟩ := List.find?_eq_some_iff_append.mp hfind
      exact ⟨front, p, back, rfl, by simpa using hfront, by simpa using hp⟩

/-- An extension adds the points up to the first that does not fit. -/
theorem extend_fst (hfresh : t.isSubdivided = false) (ps : List (Point α)) :
    (t.extend ps).1 = t.withMore (ps.takeWhile (Point.fits t.settings.rectSize)) := by
  rcases fits_or_exists_first t.settings.rectSize ps with h | ⟨front, p, back, rfl, hfront, hp⟩
  · have hall : (ps ++ []).takeWhile (Point.fits t.settings.rectSize) = ps ++ [] :=
      List.takeWhile_append_of_pos h
    rw [List.append_nil] at hall
    rw [extend_of_fits hfresh h, hall]
  · rw [extend_of_not_fits hfresh hfront hp, List.takeWhile_append_of_pos hfront,
      List.takeWhile_cons_of_neg hp, List.append_nil]

/-- **A subdivided tree stays as it is.** -/
theorem afterAll_of_isSubdivided (h : t.isSubdivided = true) (history : List (Step α)) :
    t.afterAll history = t := by
  induction history with
  | nil => rfl
  | cons step rest ih =>
      have hstep : t.after step = t := by
        cases step with
        | add p => rw [after, add_late h]
        | extend ps =>
            cases ps with
            | nil => rfl
            | cons p rest => rw [after, extend_late h]
        | subdivide => rw [after, subdivide_again h]
      rw [afterAll, List.foldl_cons, hstep]
      exact ih

/-- **What a history comes to.**  Before subdivision, a history adds the accepted points, and then
subdivides the tree if it has a subdivision. -/
theorem afterAll_eq (h : t.Sound) (hfresh : t.isSubdivided = false) (history : List (Step α)) :
    t.afterAll history =
      if history.any Step.isSubdivide then
        (t.withMore (History.accepted t.settings.rectSize history)).after .subdivide
      else t.withMore (History.accepted t.settings.rectSize history) := by
  induction history generalizing t with
  | nil => exact t.withMore_nil.symm
  | cons step rest ih =>
      rw [afterAll, List.foldl_cons]
      -- A step that does not subdivide puts some points behind the others.
      have hmore : ∀ ps, t.after step = t.withMore ps →
          rest.foldl after (t.after step) =
            if rest.any Step.isSubdivide then
              (t.withMore (ps ++ History.accepted t.settings.rectSize rest)).after .subdivide
            else t.withMore (ps ++ History.accepted t.settings.rectSize rest) := by
        intro ps hps
        have hsound := h.after step
        rw [hps] at hsound ⊢
        rw [← withMore_withMore]
        exact ih hsound hfresh
      cases step with
      | add p =>
          rw [History.accepted]
          by_cases hfits : p.fits t.settings.rectSize = true
          · rw [if_pos hfits]
            exact hmore [p] (by rw [after, add_of_fits hfresh hfits])
          · rw [if_neg hfits]
            exact hmore [] (by rw [after, add_of_not_fits hfresh hfits, withMore_nil])
      | extend ps =>
          exact hmore _ (extend_fst hfresh ps)
      | subdivide =>
          rw [History.accepted, withMore_nil]
          exact afterAll_of_isSubdivided (isSubdivided_after_subdivide h) rest

/-- A tree stays sound with more points that fit. -/
theorem Sound.withMore (h : t.Sound) (hfresh : t.isSubdivided = false)
    (hps : ∀ p ∈ ps, p.fits t.settings.rectSize = true) : (t.withMore ps).Sound := by
  have hextend := h.extend ps
  rwa [extend_of_fits hfresh hps] at hextend

/-- A history puts the accepted points behind the others, and makes nodes if it subdivides. -/
theorem exists_afterAll (h : t.Sound) (hfresh : t.isSubdivided = false)
    (history : List (Step α)) :
    ∃ arena, arena.isSome = history.any Step.isSubdivide ∧ t.afterAll history =
      { t.withMore (History.accepted t.settings.rectSize history) with arena := arena } := by
  rw [afterAll_eq h hfresh]
  have hmore : (t.withMore (History.accepted t.settings.rectSize history)).Sound :=
    h.withMore hfresh fun p hp => History.fits_of_mem_accepted hp
  cases history.any Step.isSubdivide with
  | true =>
      obtain ⟨arena, -, hafter⟩ := after_subdivide hmore hfresh
      exact ⟨some arena, rfl, hafter⟩
  | false => exact ⟨t.arena, hfresh, rfl⟩

/-- A point keeps its position for ever. -/
theorem getElem?_afterAll (h : t.Sound) {i : Nat} (hi : t.points[i]? = some p)
    (history : List (Step α)) : (t.afterAll history).points[i]? = some p := by
  cases hfresh : t.isSubdivided with
  | true => rwa [afterAll_of_isSubdivided hfresh]
  | false =>
      obtain ⟨arena, -, hafter⟩ := exists_afterAll h hfresh history
      rw [← Array.getElem?_toList] at hi ⊢
      rw [hafter, withMore, Array.toList_appendList]
      exact List.getElem?_append_left (List.getElem?_eq_some_iff.mp hi).1 ▸ hi

/-- What the operations answer in a stage of the life of a tree, and what they leave.  The stage is
late once the tree is subdivided. -/
structure Answers (t : Tree α) (side : Float) (late : Bool) : Prop where
  /-- The points that are accepted. -/
  add_isOk_iff : ∀ p, (∃ longer i, t.add p = .ok (longer, i)) ↔
    late = false ∧ p.fits side = true
  /-- A point that is accepted goes behind the others, and the answer is where it stays. -/
  add_ok : ∀ p longer i, t.add p = .ok (longer, i) →
    t.after (.add p) = longer ∧ longer = t.withMore [p] ∧ i = t.points.size ∧
      ∀ later, (longer.afterAll later).points[i]? = some p
  add_error : ∀ p e, t.add p = .error e → t.after (.add p) = t ∧ e = p.refusal side late
  extend_ok : ∀ ps, (t.extend ps).2 = .ok () → t.after (.extend ps) = t.withMore ps ∧
    ∀ p ∈ ps, late = false ∧ p.fits side = true
  /-- The points in front of the first one that is refused are kept, and whatever comes after it
  makes no difference. -/
  extend_error : ∀ ps e, (t.extend ps).2 = .error e →
    ∃ front p back, ps = front ++ p :: back ∧
      (∀ q ∈ front, late = false ∧ q.fits side = true) ∧
      ¬ (late = false ∧ p.fits side = true) ∧ e = p.refusal side late ∧
      t.after (.extend ps) = t.withMore front ∧
      ∀ other, t.extend (front ++ p :: other) = t.extend ps
  subdivide_ok : ∀ done, t.subdivide.outcome = .ok done → late = false ∧
    t.after .subdivide = done ∧ ∃ arena, done = { t with arena := some arena }
  subdivide_error : ∀ e, t.subdivide.outcome = .error e → late = true ∧
    t.after .subdivide = t ∧ e = .invalidState .secondSubdivision

/-- A tree that is not subdivided yet takes points that fit, and can be subdivided. -/
theorem answers_fresh (h : t.Sound) (hfresh : t.isSubdivided = false) :
    t.Answers t.settings.rectSize false where
  add_isOk_iff p := by
    by_cases hp : p.fits t.settings.rectSize = true
    · simp [add_of_fits hfresh hp, hp]
    · simp [add_of_not_fits hfresh hp, hp]
  add_ok p longer i hadd := by
    by_cases hp : p.fits t.settings.rectSize = true
    · have hlonger := h.add hadd
      have hafter : t.after (.add p) = longer := by rw [after, hadd]
      rw [add_of_fits hfresh hp] at hadd
      cases hadd
      refine ⟨hafter, rfl, rfl, getElem?_afterAll hlonger ?_⟩
      simp [withMore_singleton]
    · rw [add_of_not_fits hfresh hp] at hadd
      cases hadd
  add_error p e hadd := by
    refine ⟨by rw [after, hadd], ?_⟩
    by_cases hp : p.fits t.settings.rectSize = true
    · rw [add_of_fits hfresh hp] at hadd
      cases hadd
    · rw [add_of_not_fits hfresh hp] at hadd
      exact (Except.error.inj hadd).symm
  extend_ok ps hextend := by
    rcases fits_or_exists_first t.settings.rectSize ps with hps | ⟨front, p, back, rfl, hfront, hp⟩
    · exact ⟨by rw [after, extend_of_fits hfresh hps], fun p hp => ⟨rfl, hps p hp⟩⟩
    · rw [extend_of_not_fits hfresh hfront hp] at hextend
      cases hextend
  extend_error ps e hextend := by
    rcases fits_or_exists_first t.settings.rectSize ps with hps | ⟨front, p, back, rfl, hfront, hp⟩
    · rw [extend_of_fits hfresh hps] at hextend
      cases hextend
    · have hextends := fun back => extend_of_not_fits hfresh hfront hp back
      rw [hextends] at hextend
      cases hextend
      refine ⟨front, p, back, rfl, fun q hq => ⟨rfl, hfront q hq⟩, fun haccepted => hp haccepted.2,
        rfl, by rw [after, hextends], ?_⟩
      intro other
      rw [hextends, hextends]
  subdivide_ok done hdone := by
    obtain ⟨arena, houtcome, hafter⟩ := after_subdivide h hfresh
    rw [houtcome] at hdone
    cases hdone
    exact ⟨rfl, hafter, arena, rfl⟩
  subdivide_error e he := by
    obtain ⟨arena, houtcome, -⟩ := after_subdivide h hfresh
    rw [houtcome] at he
    cases he

/-- A subdivided tree takes nothing any more. -/
theorem answers_late (h : t.isSubdivided = true) (side : Float) : t.Answers side true where
  add_isOk_iff p := by simp [add_late h]
  add_ok p longer i hadd := by
    rw [add_late h] at hadd
    cases hadd
  add_error p e hadd := by
    refine ⟨by rw [after, hadd], ?_⟩
    rw [add_late h] at hadd
    exact (Except.error.inj hadd).symm
  extend_ok ps hextend := by
    cases ps with
    | nil => exact ⟨t.withMore_nil.symm, by simp⟩
    | cons p rest =>
        rw [extend_late h] at hextend
        cases hextend
  extend_error ps e hextend := by
    cases ps with
    | nil => cases hextend
    | cons p rest =>
        rw [extend_late h] at hextend
        cases hextend
        refine ⟨[], p, rest, rfl, by simp, by simp, rfl,
          by rw [after, extend_late h, withMore_nil], ?_⟩
        intro other
        rw [List.nil_append, extend_late h, extend_late h]
  subdivide_ok done hdone := by
    rw [subdivide_again h] at hdone
    cases hdone
  subdivide_error e he := by
    rw [subdivide_again h] at he
    cases he
    exact ⟨rfl, by rw [after, subdivide_again h], rfl⟩

/-- **The life of a tree.**  Any history of an empty tree comes to adding the accepted points one by
one, in order, and subdividing once if there was a subdivision.  At every moment the operations
answer as the stage of the tree demands. -/
theorem lifecycle_of_new {settings : Settings} {empty : Tree α}
    (h : (Tree.new settings).outcome = .ok empty) (history : List (Step α)) :
    empty.afterAll history = empty.afterAll (History.canonical settings.rectSize history) ∧
    (empty.afterAll history).points.toList = History.accepted settings.rectSize history ∧
    (empty.afterAll history).isSubdivided = history.any Step.isSubdivide ∧
    (empty.afterAll history).Answers settings.rectSize (history.any Step.isSubdivide) := by
  have hempty := sound_of_new h
  obtain ⟨-, rfl⟩ := eq_of_new h
  obtain ⟨arena, harena, hafter⟩ := exists_afterAll hempty rfl history
  have hlast := hempty.afterAll history
  have hstage : (Tree.afterAll ⟨settings, #[], none⟩ history).isSubdivided =
      history.any Step.isSubdivide := by
    rw [hafter]
    exact harena
  refine ⟨?_, by simp [hafter, withMore], hstage, ?_⟩
  · rw [afterAll_eq hempty rfl history, afterAll_eq hempty rfl, History.any_canonical,
      History.accepted_canonical]
  · cases hany : history.any Step.isSubdivide with
    | true => exact answers_late (hstage.trans hany) _
    | false =>
        have hanswers := answers_fresh hlast (hstage.trans hany)
        rw [hafter] at hanswers ⊢
        exact hanswers

/-- A history in which operations of every kind succeed and fail. -/
def eventful : List (Step Nat) :=
  [.add ⟨⟨0.5, 0.5⟩, 0⟩, .add ⟨⟨1.5, 0.5⟩, 7⟩,
    .extend [⟨⟨0.25, 0.5⟩, 1⟩, ⟨⟨0.9, 0.9⟩, 2⟩, ⟨⟨-0.5, 0.5⟩, 8⟩, ⟨⟨0.1, 0.1⟩, 9⟩],
    .extend [], .subdivide, .add ⟨⟨0.5, 0.5⟩, 3⟩, .extend [⟨⟨1.5, 0.5⟩, 4⟩], .subdivide]

/-- The eventful history comes to the three points of the small tree and one subdivision. -/
theorem lifecycle_eventful :
    (Tree.new {} : Logged (Tree Nat)).outcome = .ok ⟨{}, #[], none⟩ ∧
    Tree.afterAll ⟨{}, #[], none⟩ eventful =
      Tree.afterAll ⟨{}, #[], none⟩ (crossing.points.toList.map .add ++ [.subdivide]) ∧
    (Tree.afterAll ⟨{}, #[], none⟩ eventful).points.toList = crossing.points.toList ∧
    (Tree.afterAll ⟨{}, #[], none⟩ eventful).isSubdivided = true ∧
    (Tree.afterAll ⟨{}, #[], none⟩ eventful).Answers 1.0 true :=
  ⟨rfl, @lifecycle_of_new Nat {} ⟨{}, #[], none⟩ rfl eventful⟩

end Tree

end QuadCode
