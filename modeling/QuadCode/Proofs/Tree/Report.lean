import QuadCode.Proofs.Tree.Preorder

/-!
# The report of a subdivision

While the waiting nodes are looked at, each split is noted and each node that only the depth limit
holds back is counted.  Nodes that have been looked at are not touched again, so what was noted of
them is still true of the finished tree.  And since the children of a split are looked at before all
else that waits, the looks go through the finished tree from each node to its children, quadrant by
quadrant: at any time, what has been noted and what is to be said of the nodes that the waiting
places lead to make up the whole report.

Main statements:

* `Subdivision.Looks.keeps`: a node that does not wait stays as it is;
* `Growth.accounts`: what is still to be noted, told by the finished array;
* `Sound.subdivide_report`: the notices of a subdivision;
* `reported_of_reachable`: the report of a subdivision, with its wording and its order.
-/

namespace QuadCode

open Relation Subdivision

/-- Whether a node has stayed a leaf although it holds more points than a node should. -/
def Node.isDense (splitThreshold : Nat) (n : Node) : Bool :=
  n.isLeaf && decide (splitThreshold < n.points.size)

namespace Subdivision

variable {α : Type} {points : Array (Point α)} {splitThreshold limit : Nat}

/-- A node that does not wait stays as it is, and does not come to wait. -/
theorem Look.keeps {a b : Subdivision × List Nat} (hlook : Look points splitThreshold limit a b)
    {j : Nat} {n : Node} (hn : a.1.nodes[j]? = some n) (hj : j ∉ a.2) :
    b.1.nodes[j]? = some n ∧ j ∉ b.2 := by
  cases hlook with
  | few => exact ⟨hn, fun hmem => hj (List.mem_cons_of_mem _ hmem)⟩
  | deep => exact ⟨hn, fun hmem => hj (List.mem_cons_of_mem _ hmem)⟩
  | @split s id node kids rest =>
      have hne : j ≠ id := fun heq => hj (heq ▸ List.mem_cons_self)
      refine ⟨getElem?_divide_of_ne hne hn, fun hmem => ?_⟩
      rcases List.mem_append.mp hmem with hnew | hold
      · obtain ⟨q, rfl⟩ := Quadrants.mem_toList.mp hnew
        have hlt := (Array.getElem?_eq_some_iff.mp hn).1
        exact absurd hlt (Nat.not_lt_of_le (le_placesFrom s.nodes.size q).1)
      · exact hj (List.mem_cons_of_mem _ hold)

/-- **A node that has been looked at is not touched again.** -/
theorem Looks.keeps {a b : Subdivision × List Nat} (hlooks : Looks points splitThreshold limit a b)
    {j : Nat} {n : Node} (hn : a.1.nodes[j]? = some n) (hj : j ∉ a.2) :
    b.1.nodes[j]? = some n ∧ j ∉ b.2 := by
  induction hlooks with
  | refl => exact ⟨hn, hj⟩
  | tail _ hlook ih => exact hlook.keeps ih.1 ih.2

/-- What is noted between two stages of a subdivision is what there is to say of the nodes that are
looked at in between. -/
structure Accounts (splitThreshold : Nat) (s : Subdivision) (ahead : List Node)
    (done : Subdivision) : Prop where
  splits : done.splits.reverse = s.splits.reverse ++
    (ahead.filter fun n => !n.isLeaf).map fun n => (n.key, n.points.size)
  capped : done.capped = s.capped + ahead.countP (Node.isDense splitThreshold)

namespace Accounts

variable {s done : Subdivision} {ahead : List Node} {n : Node}

theorem refl (splitThreshold : Nat) (s : Subdivision) : Accounts splitThreshold s [] s :=
  ⟨by simp, by simp⟩

/-- There is nothing to say of a leaf with few points. -/
theorem few (h : Accounts splitThreshold s ahead done) (hleaf : n.isLeaf = true)
    (hfew : n.points.size ≤ splitThreshold) : Accounts splitThreshold s (n :: ahead) done := by
  have hsparse : n.isDense splitThreshold = false := by simp [Node.isDense, hfew]
  constructor
  · rw [List.filter_cons_of_neg (by simp [hleaf])]
    exact h.splits
  · rw [List.countP_cons_of_neg (by simp [hsparse])]
    exact h.capped

/-- A leaf with many points is counted. -/
theorem deep (h : Accounts splitThreshold { s with capped := s.capped + 1 } ahead done)
    (hleaf : n.isLeaf = true) (hmany : splitThreshold < n.points.size) :
    Accounts splitThreshold s (n :: ahead) done := by
  have hdense : n.isDense splitThreshold = true := by simp [Node.isDense, hleaf, hmany]
  constructor
  · rw [List.filter_cons_of_neg (by simp [hleaf])]
    exact h.splits
  · rw [List.countP_cons_of_pos hdense, h.capped]
    simp only [Nat.add_assoc, Nat.add_comm]

/-- A node with children is noted with its key and the number of its points. -/
theorem split {id : Nat} {kids : Quadrants Node} {links : Quadrants Nat}
    (h : Accounts splitThreshold (s.divide id n kids) ahead done) :
    Accounts splitThreshold s ({ n with children := some links } :: ahead) done := by
  have hsplits := h.splits
  constructor
  · rw [List.filter_cons_of_pos rfl, hsplits, divide, List.reverse_cons, List.append_assoc]
    rfl
  · rw [List.countP_cons_of_neg (by simp [Node.isDense, Node.isLeaf])]
    exact h.capped

end Accounts

end Subdivision

/-- A node that is looked at and left alone is a leaf of the finished array. -/
theorem Growth.nodesBelow_settled {α : Type} {points : Array (Point α)}
    {splitThreshold limit : Nat} {root n : Node} {s s' done : Subdivision} {id : Nat}
    {rest : List Nat} (h : Growth points splitThreshold limit root s.nodes (id :: rest))
    (hn : s.nodes[id]? = some n)
    (hlooks : Looks points splitThreshold limit (s', rest) (done, []))
    (hsame : s'.nodes = s.nodes) :
    n.isLeaf = true ∧ nodesBelow done.nodes id = [n] := by
  have hchildless := h.childless_top hn
  have hkept : s'.nodes[id]? = some n := by rw [hsame, hn]
  have hfinal := (Looks.keeps hlooks hkept (List.nodup_cons.mp h.distinct).1).1
  exact ⟨Node.isLeaf_iff.mpr hchildless, nodesBelow_leaf hfinal hchildless⟩

/-- **What is still to be noted.**  Until no place waits, the nodes that the waiting places lead to
in the finished array are noted, each before its children and quadrant by quadrant. -/
theorem Growth.accounts {α : Type} {points : Array (Point α)} {splitThreshold limit : Nat}
    {root : Node} {a : Subdivision × List Nat} {done : Subdivision}
    (h : Growth points splitThreshold limit root a.1.nodes a.2)
    (hlooks : Looks points splitThreshold limit a (done, [])) :
    Accounts splitThreshold a.1 (a.2.flatMap (nodesBelow done.nodes)) done := by
  have hdone : Growth points splitThreshold limit root done.nodes [] := h.looks hlooks
  induction hlooks using ReflTransGen.head_induction_on with
  | refl => exact Accounts.refl splitThreshold done
  | head hlook hrest ih =>
      have hnext := h.look hlook
      have hahead := ih hnext
      cases hlook with
      | @few s id node rest hnode hfew =>
          obtain ⟨hleaf, hbelow⟩ := h.nodesBelow_settled hnode hrest rfl
          rw [List.flatMap_cons, hbelow]
          exact hahead.few hleaf hfew
      | @deep s id node rest hnode hmany hdeep =>
          obtain ⟨hleaf, hbelow⟩ := h.nodesBelow_settled hnode hrest rfl
          rw [List.flatMap_cons, hbelow]
          exact hahead.deep hleaf hmany
      | @split s id node kids rest hnode hmany hlod hkids =>
          have hself : (s.divide id node kids).nodes[id]? =
              some { node with children := some (placesFrom s.nodes.size) } :=
            getElem?_divide_self hnode
          -- What waits has no children, and this node has got some.
          have hgone : id ∉ (placesFrom s.nodes.size).toList ++ rest := by
            intro hmem
            obtain ⟨m, hm, hchildless⟩ := hnext.waits hmem
            obtain rfl := Option.some.inj (hself.symm.trans hm)
            cases hchildless
          have hfinal := (Looks.keeps hrest hself hgone).1
          rw [List.flatMap_cons, hdone.nodesBelow_branch hfinal rfl, List.cons_append,
            ← List.flatMap_append]
          exact hahead.split

/-- A digit of a code stands between quotes as it is. -/
theorem Quadrant.quotedForm_digit (q : Quadrant) : quotedForm '\x22' q.digit = [q.digit] := by
  cases q <;> decide +kernel

/-- No character of a code has to be escaped between quotes. -/
theorem Key.quoteText_code (k : Key) : quoteText k.code = "\"" ++ k.code ++ "\"" := by
  have hplain : (k.path.map Quadrant.digit).flatMap (quotedForm '\x22') =
      k.path.map Quadrant.digit := by
    induction k.path with
    | nil => rfl
    | cons q path ih =>
        rw [List.map_cons, List.flatMap_cons, ih, q.quotedForm_digit]
        rfl
  rw [← String.toList_inj, quoteText, String.toList_ofList, k.toList_code, hplain,
    String.toList_append, String.toList_append, k.toList_code]
  rfl

namespace Notice

theorem line_split (key : Key) (points : Nat) : (split key points).line =
    s!"TRACE splitting node \"{key.code}\" at lod {key.lod} " ++ s!"holding {points} points" := by
  have hopen : "TRACE splitting node \"" = "TRACE" ++ " " ++ "splitting node " ++ "\"" := by decide
  have hclose : "\" at lod " = "\"" ++ " at lod " := by decide
  have hholding : " holding " = " " ++ "holding " := by decide
  show "TRACE" ++ " " ++ ("splitting node " ++ quoteText key.code ++ " at lod " ++
      toString key.lod ++ " holding " ++ toString points ++ " points") =
    "TRACE splitting node \"" ++ key.code ++ "\" at lod " ++ toString key.lod ++ " " ++
      ("holding " ++ toString points ++ " points")
  rw [key.quoteText_code, hopen, hclose, hholding]
  simp only [String.append_assoc]

theorem line_capped (leaves lodThreshold splitThreshold : Nat) :
    (capped leaves lodThreshold splitThreshold).line =
      s!"WARN {leaves} leaves reached lod threshold " ++ s!"{lodThreshold} with more than " ++
        s!"{splitThreshold} points" := by
  have hopen : "WARN " = "WARN" ++ " " := by decide
  show "WARN" ++ " " ++ (toString leaves ++ " leaves reached lod threshold " ++
      toString lodThreshold ++ " with more than " ++ toString splitThreshold ++ " points") =
    "WARN " ++ toString leaves ++ " leaves reached lod threshold " ++
      (toString lodThreshold ++ " with more than ") ++ (toString splitThreshold ++ " points")
  rw [hopen]
  simp only [String.append_assoc]

theorem line_subdivided (points nodes splits indexed : Nat) :
    (subdivided points nodes splits indexed).line =
      s!"DEBUG subdivided {points} points into {nodes} nodes " ++
        s!"({splits} splits, {indexed} indexed leaves)" := by
  have hopen : "DEBUG subdivided " = "DEBUG" ++ " " ++ "subdivided " := by decide
  have hnodes : " nodes (" = " nodes " ++ "(" := by decide
  show "DEBUG" ++ " " ++ ("subdivided " ++ toString points ++ " points into " ++ toString nodes ++
      " nodes (" ++ toString splits ++ " splits, " ++ toString indexed ++ " indexed leaves)") =
    "DEBUG subdivided " ++ toString points ++ " points into " ++ toString nodes ++ " nodes " ++
      ("(" ++ toString splits ++ " splits, " ++ toString indexed ++ " indexed leaves)")
  rw [hopen, hnodes]
  simp only [String.append_assoc]

end Notice

namespace Tree

variable {α : Type} {t : Tree α}

/-- The nodes with children, each in front of those below it. -/
def branches (t : Tree α) : List Node :=
  t.preorder.filter fun n => !n.isLeaf

/-- The leaves that hold more points than a node should. -/
def denseLeaves (t : Tree α) : List Node :=
  t.leaves.filter fun leaf => decide (t.settings.splitThreshold.toNat < leaf.points.size)

/-- What there is to report of a subdivided tree: each node with children, whether some leaves hold
too many points, and the numbers of points, of nodes, of nodes with children and of leaves that hold
a point. -/
def report (t : Tree α) : List Notice :=
  t.branches.map (fun n => .split n.key n.points.size) ++
    ((if t.denseLeaves = [] then [] else
      [.capped t.denseLeaves.length t.settings.lodThreshold.toNat
        t.settings.splitThreshold.toNat]) ++
    [.subdivided t.points.size t.nodes.size t.branches.length t.occupiedLeaves.length])

/-- The wording of the report. -/
theorem lines_report (t : Tree α) : t.report.map Notice.line =
    (t.branches.map fun n => s!"TRACE splitting node \"{n.key.code}\" at lod {n.key.lod} " ++
      s!"holding {n.points.size} points") ++
    ((if t.denseLeaves = [] then [] else
      [s!"WARN {t.denseLeaves.length} leaves reached lod threshold " ++
        s!"{t.settings.lodThreshold.toNat} with more than " ++
        s!"{t.settings.splitThreshold.toNat} points"]) ++
    [s!"DEBUG subdivided {t.points.size} points into {t.nodes.size} nodes " ++
      s!"({t.branches.length} splits, {t.occupiedLeaves.length} indexed leaves)"]) := by
  simp only [report, List.map_append, List.map_map, Function.comp_def, Notice.line_split,
    apply_ite (List.map Notice.line), List.map_cons, List.map_nil, Notice.line_capped,
    Notice.line_subdivided]

/-- The notices of a subdivision that succeeds. -/
theorem subdivide_notices (hfresh : t.isSubdivided = false) {s : Subdivision}
    (hs : ofPoints t.settings t.points = .ok s) :
    t.subdivide.notices = (s.splits.map fun mark => .split mark.1 mark.2) ++
      ((if 0 < s.capped then
        [.capped s.capped t.settings.lodThreshold.toNat t.settings.splitThreshold.toNat] else []) ++
      [.subdivided t.points.size s.nodes.size s.splits.length
        ({ t with arena := some s.nodes } : Tree α).index.size]) := by
  have hpure : (liftM (ofPoints t.settings t.points) : Logged Subdivision) = pure s := by
    rw [hs]
    rfl
  simp only [subdivide, hfresh, Bool.false_eq_true, if_false, hpure, pure_bind]
  by_cases hcapped : 0 < s.capped
  · simp only [if_pos hcapped]
    rfl
  · simp only [if_neg hcapped]
    rfl

/-- As many nodes are listed as branches as have children. -/
theorem Sound.length_branches (h : t.Sound) : t.branches.length = branchCount t.nodes := by
  rw [branches, (h.preorder_perm.filter _).length_eq, ← List.countP_eq_length_filter, branchCount,
    ← Array.countP_toList]
  refine List.countP_congr fun n _ => ?_
  rw [Node.isLeaf, Option.not_isNone]

/-- As many nodes are dense as leaves hold too many points. -/
theorem Sound.countP_isDense (h : t.Sound) :
    t.preorder.countP (Node.isDense t.settings.splitThreshold.toNat) = t.denseLeaves.length := by
  rw [h.preorder_perm.countP_eq, denseLeaves, (h.leaves_perm.filter _).length_eq,
    List.filter_filter, ← List.countP_eq_length_filter]
  refine List.countP_congr fun n _ => ?_
  rw [Node.isDense, Bool.and_comm]

/-- **The subdivision of a tree leaves the report of the finished tree.** -/
theorem Sound.subdivide_report (h : t.Sound) (hfresh : t.isSubdivided = false) {done : Tree α}
    (hdone : t.subdivide.outcome = .ok done) : t.subdivide.notices = done.report := by
  obtain ⟨hsound, hsubdivided⟩ := h.subdivided hdone
  obtain ⟨s, hrun, hlooks, houtcome⟩ := subdivide_of_sound h hfresh
  obtain rfl := Except.ok.inj (houtcome.symm.trans hdone)
  have haccounts := Growth.accounts (Growth.start t.points _ _ rfl) hlooks
  have hs : ofPoints t.settings t.points = .ok { s with splits := s.splits.reverse } := by
    rw [ofPoints_eq_run, hrun]
    rfl
  rw [subdivide_notices hfresh hs]
  -- From here on only the finished tree matters.
  generalize hfinal : ({ t with arena := some s.nodes } : Tree α) = done at hsound hsubdivided ⊢
  have hparts : t.settings = done.settings ∧ t.points = done.points ∧ s.nodes = done.nodes := by
    rw [← hfinal]
    exact ⟨rfl, rfl, rfl⟩
  obtain ⟨hsettings, hpoints, hnodes⟩ := hparts
  have hsplits : s.splits.reverse = done.branches.map fun n => (n.key, n.points.size) := by
    simpa [initial, branches, preorder, hnodes] using haccounts.splits
  have hcapped : s.capped = done.denseLeaves.length := by
    rw [← hsound.countP_isDense, ← hsettings]
    simpa [initial, preorder, hnodes] using haccounts.capped
  have hindexed : done.index.size = done.occupiedLeaves.length := by
    have hlength := (hsound.toList_index_perm hsubdivided).length_eq
    rwa [Std.ExtTreeMap.length_toList, List.length_map] at hlength
  rw [hsplits, hcapped, hindexed, hnodes, hpoints, hsettings, report, List.map_map,
    List.length_map]
  simp only [List.length_pos_iff, ite_not, Function.comp_def]

/-- What the subdivision of a tree reports, told by the tree that it leaves. -/
structure Reported (t done : Tree α) : Prop where
  outcome : t.subdivide.outcome = .ok done
  kept : done.settings = t.settings ∧ done.points = t.points
  /-- Every node has one place in the order in which splits are reported. -/
  listed : done.preorder.Perm done.nodes.toList
  increasing : done.preorder.Pairwise fun a b => CodeBefore a.key.code b.key.code
  notices : t.subdivide.notices = done.report
  lines : t.subdivide.notices.map Notice.line =
    (done.branches.map fun n => s!"TRACE splitting node \"{n.key.code}\" at lod {n.key.lod} " ++
      s!"holding {n.points.size} points") ++
    ((if done.denseLeaves = [] then [] else
      [s!"WARN {done.denseLeaves.length} leaves reached lod threshold " ++
        s!"{done.settings.lodThreshold.toNat} with more than " ++
        s!"{done.settings.splitThreshold.toNat} points"]) ++
    [s!"DEBUG subdivided {done.points.size} points into {done.nodes.size} nodes " ++
      s!"({done.branches.length} splits, {done.occupiedLeaves.length} indexed leaves)"])
  splits : done.branches.length = branchCount done.nodes ∧
    branchCount done.nodes = (done.nodes.size - 1) / 4

/-- **The report of a subdivision is exact.**  Subdividing a tree succeeds.  It notes each node that
has children in the end, depth first and each before its children; it warns exactly if some leaf
holds more points than a node should, and counts these leaves; and the numbers of its last notice
are those of the finished tree. -/
theorem reported_of_reachable {t : Tree α} (h : t.Reachable) (hfresh : t.isSubdivided = false) :
    ∃ done, t.Reported done := by
  have hsound := Sound.of_reachable h
  obtain ⟨s, -, -, houtcome⟩ := subdivide_of_sound hsound hfresh
  have hdone := (hsound.subdivided houtcome).1
  have hnotices := hsound.subdivide_report hfresh houtcome
  refine ⟨{ t with arena := some s.nodes }, ?_⟩
  refine
    { outcome := houtcome
      kept := ⟨rfl, rfl⟩
      listed := hdone.preorder_perm
      increasing := hdone.pairwise_preorder
      notices := hnotices
      lines := ?_
      splits := ?_ }
  · rw [hnotices, lines_report]
  · obtain ⟨waiting, hgrowth⟩ := hdone.growth
    have hsize := hgrowth.size_eq
    exact ⟨hdone.length_branches, by omega⟩

/-- The small tree reports its subdivision. -/
theorem reported_crossing :
    crossing.Reachable ∧ crossing.isSubdivided = false ∧ ∃ done, crossing.Reported done :=
  ⟨reachable_crossing, rfl, reported_of_reachable reachable_crossing rfl⟩

end Tree

end QuadCode
