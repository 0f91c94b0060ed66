import QuadCode.Proofs.Tree.Arena
import QuadCode.Tree.History

/-!
# What every history keeps

A tree that some history of operations leads to is `Sound`: its settings are valid, its points lie
in its region, and its node array, once there is one, has grown to the end.  Operations that fail
keep this as well as those that succeed.  Before subdivision the tree has the one node that growth
starts with, so `Sound.growth` describes the nodes at every stage.

Main statements:

* `Sound.after` and `Sound.of_reachable`: one operation keeps a tree sound, and so does a history;
* `subdivide_of_sound`: a sound tree that is not subdivided yet can be subdivided;
* `Sound.isSubdivided_afterAll`: a history that ends with a subdivision leaves a subdivided tree.
-/

namespace QuadCode

open Subdivision

variable {α : Type}

/-- Valid settings have a region of positive finite size and a depth limit that is not too deep. -/
theorem Settings.parts_of_valid {s : Settings} (h : s.validate = .ok ()) :
    s.rectSize.isFinite = true ∧ ¬ s.rectSize ≤ 0.0 ∧ s.lodThreshold.toNat ≤ 52 := by
  unfold validate fault? at h
  split at h
  · rename_i hfault
    split at hfault
    · cases hfault
    · rename_i hsize
      split at hfault
      · cases hfault
      · rename_i hlod
        have hlimit : s.lodThreshold ≤ maxLodThreshold := UInt32.not_lt.mp hlod
        simp only [Bool.or_eq_true, Bool.not_eq_true', decide_eq_true_eq, not_or] at hsize
        exact ⟨by simpa using hsize.1, hsize.2, UInt32.le_iff_toNat_le.mp hlimit⟩
  · cases h

/-- Settings without a fault are valid. -/
theorem Settings.valid_of_no_fault {s : Settings} (h : s.fault?.isNone = true) :
    s.validate = .ok () := by
  rw [validate, Option.isNone_iff_eq_none.mp h]

/-- The first state of a subdivision: the undivided region waits. -/
def Subdivision.initial (root : Node) : Subdivision :=
  ⟨#[root], [], 0⟩

namespace Tree

/-- The undivided region is the only node, and it waits at its place. -/
theorem standing_initial (t : Tree α) :
    Pending.Standing (initial t.undivided).nodes [⟨0, t.undivided⟩] := by
  constructor
  · intro p hp
    rw [List.mem_singleton.mp hp]
    rfl
  · simp

/-- Subdividing the points of a tree is a run from its undivided region. -/
theorem ofPoints_eq_run (t : Tree α) :
    ofPoints t.settings t.points =
      (run t.points t.settings.splitThreshold.toNat t.settings.lodThreshold.toNat
        (initial t.undivided) [⟨0, t.undivided⟩]).map
          fun s => { s with splits := s.splits.reverse } := rfl

/-- A tree that is not subdivided yet gets the nodes of the subdivision of its points. -/
theorem subdivide_outcome {t : Tree α} (h : t.isSubdivided = false) :
    t.subdivide.outcome =
      (ofPoints t.settings t.points).map fun s => { t with arena := some s.nodes } := by
  simp only [subdivide, h, Bool.false_eq_true, if_false]
  rw [Logged.outcome_bind]
  show ofPoints t.settings t.points >>= _ = _
  cases ofPoints t.settings t.points with
  | error e => rfl
  | ok s =>
      show Logged.outcome _ = _
      by_cases hcapped : 0 < s.capped
      · simp only [if_pos hcapped]
        rfl
      · simp only [if_neg hcapped]
        rfl

/-- A subdivided tree is not subdivided again. -/
theorem subdivide_again {t : Tree α} (h : t.isSubdivided = true) :
    t.subdivide.outcome = .error (.invalidState .secondSubdivision) := by
  simp only [subdivide, h, if_true]
  rfl

/-- What holds of a tree at every stage of its life. -/
structure Sound (t : Tree α) : Prop where
  valid : t.settings.validate = .ok ()
  admitted : ∀ p ∈ t.points, t.admits p = true
  grown : ∀ nodes, t.arena = some nodes →
    Growth t.points t.settings.splitThreshold.toNat t.settings.lodThreshold.toNat t.undivided
      nodes []

/-- The node array of a sound tree has grown from the undivided region, at least so far. -/
theorem Sound.growth {t : Tree α} (h : t.Sound) :
    ∃ waiting, Growth t.points t.settings.splitThreshold.toNat t.settings.lodThreshold.toNat
      t.undivided t.nodes waiting := by
  cases harena : t.arena with
  | none =>
      refine ⟨[0], ?_⟩
      rw [nodes, harena, Option.getD_none]
      exact Growth.start _ _ _ rfl
  | some arena =>
      refine ⟨[], ?_⟩
      rw [nodes, harena, Option.getD_some]
      exact h.grown arena harena

/-- A subdivided tree has no node left to look at. -/
theorem Sound.growth_of_isSubdivided {t : Tree α} (h : t.Sound)
    (hdone : t.isSubdivided = true) :
    Growth t.points t.settings.splitThreshold.toNat t.settings.lodThreshold.toNat t.undivided
      t.nodes [] := by
  obtain ⟨arena, harena⟩ := Option.isSome_iff_exists.mp hdone
  rw [nodes, harena, Option.getD_some]
  exact h.grown arena harena

/-- **Subdivision succeeds.**  A sound tree that is not subdivided yet gets the nodes of a run that
looks at waiting nodes until none is left. -/
theorem subdivide_of_sound {t : Tree α} (h : t.Sound) (hfresh : t.isSubdivided = false) :
    ∃ s, run t.points t.settings.splitThreshold.toNat t.settings.lodThreshold.toNat
        (initial t.undivided) [⟨0, t.undivided⟩] = .ok s ∧
      Looks t.points t.settings.splitThreshold.toNat t.settings.lodThreshold.toNat
        (initial t.undivided, [0]) (s, []) ∧
      t.subdivide.outcome = .ok { t with arena := some s.nodes } := by
  obtain ⟨s, hs⟩ : ∃ s, run t.points t.settings.splitThreshold.toNat
      t.settings.lodThreshold.toNat (initial t.undivided) [⟨0, t.undivided⟩] = .ok s :=
    run_isOk (Nat.lt_of_le_of_lt (Settings.parts_of_valid h.valid).2.2 (by decide)) _ _
  refine ⟨s, hs, looks_of_run t.standing_initial hs, ?_⟩
  rw [subdivide_outcome hfresh, ofPoints_eq_run, hs]
  rfl

/-- A first subdivision keeps the settings and the points. -/
theorem after_subdivide {t : Tree α} (h : t.Sound) (hfresh : t.isSubdivided = false) :
    ∃ arena, t.subdivide.outcome = .ok { t with arena := some arena } ∧
      t.after .subdivide = { t with arena := some arena } := by
  obtain ⟨s, -, -, houtcome⟩ := subdivide_of_sound h hfresh
  exact ⟨s.nodes, houtcome, by rw [after, houtcome]⟩

/-- After a subdivision a tree is subdivided, whether or not it was the first one. -/
theorem isSubdivided_after_subdivide {t : Tree α} (h : t.Sound) :
    (t.after .subdivide).isSubdivided = true := by
  cases hfresh : t.isSubdivided with
  | true => rwa [after, subdivide_again hfresh]
  | false =>
      obtain ⟨arena, -, hafter⟩ := after_subdivide h hfresh
      rw [hafter]
      rfl

/-- A tree that is subdivided is sound again. -/
theorem Sound.subdivided {t done : Tree α} (h : t.Sound) (hdone : t.subdivide.outcome = .ok done) :
    done.Sound ∧ done.isSubdivided = true := by
  cases hfresh : t.isSubdivided with
  | true =>
      rw [subdivide_again hfresh] at hdone
      cases hdone
  | false =>
      obtain ⟨s, -, hlooks, houtcome⟩ := subdivide_of_sound h hfresh
      rw [houtcome, Except.ok.injEq] at hdone
      subst hdone
      refine ⟨⟨h.valid, h.admitted, ?_⟩, rfl⟩
      intro nodes hnodes
      rw [← Option.some.inj hnodes]
      exact Growth.looks (Growth.start t.points _ _ rfl) hlooks

/-- A tree stays sound when a point is added. -/
theorem Sound.add {t longer : Tree α} {p : Point α} {i : Nat} (h : t.Sound)
    (hadd : t.add p = .ok (longer, i)) : longer.Sound := by
  unfold Tree.add at hadd
  split at hadd
  · cases hadd
  · rename_i hfresh
    split at hadd
    · rename_i hadmits
      cases hadd
      refine ⟨h.valid, ?_, ?_⟩
      · intro p' hp'
        rcases Array.mem_push.mp hp' with hold | rfl
        · exact h.admitted p' hold
        · exact hadmits
      · intro nodes hnodes
        rw [isSubdivided, show t.arena = some nodes from hnodes] at hfresh
        exact absurd rfl hfresh
    · cases hadd

/-- A tree stays sound when points are added up to the first one that is refused. -/
theorem Sound.extend {t : Tree α} (h : t.Sound) (ps : List (Point α)) : (t.extend ps).1.Sound := by
  induction ps generalizing t with
  | nil => exact h
  | cons p rest ih =>
      rw [Tree.extend]
      cases hadd : t.add p with
      | error e => exact h
      | ok longer => exact ih (h.add hadd)

/-- One operation keeps a tree sound, whether it succeeds or fails. -/
theorem Sound.after {t : Tree α} (h : t.Sound) (step : Step α) : (t.after step).Sound := by
  cases step with
  | add p =>
      rw [Tree.after]
      cases hadd : t.add p with
      | error e => exact h
      | ok longer => exact h.add hadd
  | extend ps => exact h.extend ps
  | subdivide =>
      rw [Tree.after]
      cases hdone : t.subdivide.outcome with
      | error e => exact h
      | ok done => exact (h.subdivided hdone).1

/-- A history keeps a tree sound. -/
theorem Sound.afterAll {t : Tree α} (h : t.Sound) (history : List (Step α)) :
    (t.afterAll history).Sound := by
  induction history generalizing t with
  | nil => exact h
  | cons step rest ih => exact ih (h.after step)

/-- A history that ends with a subdivision leaves a subdivided tree. -/
theorem Sound.isSubdivided_afterAll {t : Tree α} (h : t.Sound) (before : List (Step α)) :
    (t.afterAll (before ++ [.subdivide])).isSubdivided = true := by
  rw [Tree.afterAll, List.foldl_append]
  exact isSubdivided_after_subdivide (h.afterAll before)

/-- Settings make an empty tree if they are valid, and are refused for the reason they are not. -/
theorem new_outcome (settings : Settings) :
    (Tree.new settings : Logged (Tree α)).outcome =
      settings.validate.map fun _ => ⟨settings, #[], none⟩ := by
  simp only [new]
  rw [Logged.outcome_bind]
  show settings.validate >>= _ = _
  cases settings.validate with
  | error e => rfl
  | ok u =>
      show Logged.outcome _ = _
      by_cases hdeep : deepLimit < settings.lodThreshold
      · simp only [if_pos hdeep]
        rfl
      · simp only [if_neg hdeep]
        rfl

/-- A new tree has the given settings, which are valid, and neither points nor nodes. -/
theorem eq_of_new {settings : Settings} {empty : Tree α}
    (h : (Tree.new settings).outcome = .ok empty) :
    settings.validate = .ok () ∧ empty = ⟨settings, #[], none⟩ := by
  rw [new_outcome] at h
  cases hvalid : settings.validate with
  | error e =>
      rw [hvalid] at h
      cases h
  | ok u =>
      rw [hvalid] at h
      exact ⟨rfl, (Except.ok.inj h).symm⟩

/-- An empty tree with valid settings is sound, and no other settings make a tree. -/
theorem sound_of_new {settings : Settings} {empty : Tree α}
    (h : (Tree.new settings).outcome = .ok empty) : empty.Sound := by
  obtain ⟨hvalid, rfl⟩ := eq_of_new h
  exact ⟨hvalid, by simp, fun nodes hnodes => by cases hnodes⟩

/-- **Every tree is sound.** -/
theorem Sound.of_reachable {t : Tree α} (h : t.Reachable) : t.Sound := by
  obtain ⟨settings, empty, history, hempty, rfl⟩ := h
  exact (sound_of_new hempty).afterAll history

/-- A history goes on from where another one ends. -/
theorem Reachable.afterAll {t : Tree α} (h : t.Reachable) (history : List (Step α)) :
    (t.afterAll history).Reachable := by
  obtain ⟨settings, empty, before, hempty, rfl⟩ := h
  exact ⟨settings, empty, before ++ history, hempty, List.foldl_append.symm⟩

/-- A small tree: a point where the mid lines of the region meet, one on a mid line only, and one
on no line of the first cells. -/
def crossing : Tree Nat :=
  ⟨{}, #[⟨⟨0.5, 0.5⟩, 0⟩, ⟨⟨0.25, 0.5⟩, 1⟩, ⟨⟨0.9, 0.9⟩, 2⟩], none⟩

/-- The points of the small tree are added one by one, between points that are refused. -/
theorem reachable_crossing : crossing.Reachable :=
  ⟨{}, ⟨{}, #[], none⟩,
    [.add ⟨⟨0.5, 0.5⟩, 0⟩, .add ⟨⟨1.5, 0.5⟩, 7⟩,
      .extend [⟨⟨0.25, 0.5⟩, 1⟩, ⟨⟨0.9, 0.9⟩, 2⟩, ⟨⟨-0.5, 0.5⟩, 8⟩, ⟨⟨0.1, 0.1⟩, 9⟩]],
    rfl, rfl⟩

/-- Subdividing the small tree keeps its settings and its points. -/
theorem exists_afterAll_crossing :
    ∃ arena, crossing.afterAll [.subdivide] = { crossing with arena := some arena } := by
  obtain ⟨arena, -, hafter⟩ := after_subdivide (Sound.of_reachable reachable_crossing) rfl
  exact ⟨arena, hafter⟩

theorem isSubdivided_crossing : (crossing.afterAll [.subdivide]).isSubdivided = true :=
  (Sound.of_reachable reachable_crossing).isSubdivided_afterAll []

end Tree

end QuadCode
