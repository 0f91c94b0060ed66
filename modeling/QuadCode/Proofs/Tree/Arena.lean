import QuadCode.Proofs.Tree.Looks

/-!
# The node array while it grows

`Growth` says what is true of the node array and of the waiting places between any two looks.  The
places that wait are those of childless nodes; every other childless node was left alone because
it holds few points or lies below the depth limit; and a node with children has them at four
places in a row, all behind its own, where they stand with the key, the rectangle and the points
that a split gives them.  No two links lead to one place, and the links lead to every place but
the first.

Main statements:

* `Growth.start`: the undivided region has grown so far;
* `Growth.look` and `Growth.looks`: one look keeps all this, and so does any number of them;
* `Growth.node_induction`: what holds of the root and passes from a node to its children holds of
  every node;
* `Growth.leaf_induction`: what holds of the leaves and passes from children to their parent holds
  of every node.
-/

namespace QuadCode

open Subdivision

variable {α : Type}

/-- The node at place `p` has its child in quadrant `q` at place `c`. -/
def Linked (nodes : Array Node) (p : Nat) (q : Quadrant) (c : Nat) : Prop :=
  ∃ n kids, nodes[p]? = some n ∧ n.children = some kids ∧ kids.get q = c

/-- The node at the upper end of a link has children. -/
theorem Linked.children {nodes : Array Node} {p c : Nat} {q : Quadrant} {n : Node}
    (h : Linked nodes p q c) (hn : nodes[p]? = some n) :
    ∃ kids, n.children = some kids ∧ kids.get q = c := by
  obtain ⟨m, kids, hm, hkids, hget⟩ := h
  obtain rfl := Option.some.inj (hn.symm.trans hm)
  exact ⟨kids, hkids, hget⟩

/-- How many nodes have children. -/
def branchCount (nodes : Array Node) : Nat :=
  nodes.countP fun n => n.children.isSome

/-- A node array on the way from the undivided region to the finished tree. -/
structure Growth (points : Array (Point α)) (splitThreshold limit : Nat) (root : Node)
    (nodes : Array Node) (waiting : List Nat) : Prop where
  first : ∃ n, nodes[0]? = some n ∧ n.bare = root
  waits : ∀ {id : Nat}, id ∈ waiting → ∃ n, nodes[id]? = some n ∧ n.children = none
  distinct : waiting.Nodup
  stopped : ∀ {id : Nat} {n : Node}, nodes[id]? = some n → n.children = none → id ∉ waiting →
    n.points.size ≤ splitThreshold ∨ limit < n.key.lod
  divided : ∀ {id : Nat} {n : Node} {kids : Quadrants Nat}, nodes[id]? = some n →
    n.children = some kids → splitThreshold < n.points.size ∧ n.key.lod ≤ limit
  placed : ∀ {id : Nat} {n : Node} {kids : Quadrants Nat}, nodes[id]? = some n →
    n.children = some kids → ∃ place, kids = placesFrom place ∧ id < place ∧ place + 4 ≤ nodes.size
  child : ∀ {id : Nat} {n : Node} {kids : Quadrants Nat}, nodes[id]? = some n →
    n.children = some kids → ∀ q, ∃ c, nodes[kids.get q]? = some c ∧ n.childIn points q = .ok c.bare
  parent : ∀ {id : Nat}, 0 < id → id < nodes.size → ∃ p q, Linked nodes p q id
  unique : ∀ {p p' c : Nat} {q q' : Quadrant}, Linked nodes p q c → Linked nodes p' q' c →
    p = p' ∧ q = q'
  size_eq : nodes.size = 1 + 4 * branchCount nodes

/-- A childless node is its own bare node. -/
theorem Node.bare_of_childless {n : Node} (h : n.children = none) : n.bare = n := by
  cases n
  simp_all [Node.bare, Node.leaf]

/-- A link leads further on in the array. -/
theorem Growth.lt_of_linked {points : Array (Point α)} {splitThreshold limit : Nat} {root : Node}
    {nodes : Array Node} {waiting : List Nat}
    (h : Growth points splitThreshold limit root nodes waiting) {p c : Nat} {q : Quadrant}
    (hlink : Linked nodes p q c) : p < c ∧ c < nodes.size := by
  obtain ⟨n, kids, hn, hkids, rfl⟩ := hlink
  obtain ⟨place, rfl, hlt, hsize⟩ := h.placed hn hkids
  have := le_placesFrom place q
  omega

/-- The undivided region is where growth starts. -/
theorem Growth.start (points : Array (Point α)) (splitThreshold limit : Nat) {root : Node}
    (hroot : root.children = none) :
    Growth points splitThreshold limit root #[root] [0] := by
  have only : ∀ {id : Nat} {n : Node}, #[root][id]? = some n → id = 0 ∧ n = root := by
    intro id n h
    have hlt := (Array.getElem?_eq_some_iff.mp h).1
    obtain rfl : id = 0 := by simpa using hlt
    exact ⟨rfl, by simpa using h.symm⟩
  have nolink : ∀ {p : Nat} {q : Quadrant} {c : Nat}, ¬ Linked #[root] p q c := by
    intro p q c hlink
    obtain ⟨n, kids, hn, hkids, -⟩ := hlink
    rw [(only hn).2, hroot] at hkids
    cases hkids
  refine
    { first := ⟨root, rfl, Node.bare_of_childless hroot⟩
      waits := ?_
      distinct := by simp
      stopped := ?_
      divided := ?_
      placed := ?_
      child := ?_
      parent := ?_
      unique := fun hlink => absurd hlink nolink
      size_eq := by simp [branchCount, hroot] }
  · intro id hid
    rw [List.mem_singleton.mp hid]
    exact ⟨root, rfl, hroot⟩
  · intro id n hn _ hid
    exact absurd (List.mem_singleton.mpr (only hn).1) hid
  · intro id n kids hn hkids
    exact absurd ⟨n, kids, hn, hkids, rfl⟩ (nolink (q := .bottomLeft))
  · intro id n kids hn hkids
    exact absurd ⟨n, kids, hn, hkids, rfl⟩ (nolink (q := .bottomLeft))
  · intro id n kids hn hkids
    exact absurd ⟨n, kids, hn, hkids, rfl⟩ (nolink (q := .bottomLeft))
  · intro id hpos hlt
    simp at hlt
    omega

section

variable {s : Subdivision} {id : Nat} {n node : Node} {kids : Quadrants Node}

/-- After a childless node is split, a node with children is that one or had them before. -/
theorem branch_divide_cases (hid : s.nodes[id]? = some n)
    (hkids : ∀ q, (kids.get q).children = none) {j : Nat} {m : Node} {links : Quadrants Nat}
    (hm : (s.divide id node kids).nodes[j]? = some m) (hlinks : m.children = some links) :
    (j = id ∧ m = { n with children := some (placesFrom s.nodes.size) } ∧
      links = placesFrom s.nodes.size) ∨ (j ≠ id ∧ s.nodes[j]? = some m) := by
  rcases divide_cases hm with ⟨hj, m', hm', rfl⟩ | hold | ⟨q, -, rfl⟩
  · rw [hid, Option.some.injEq] at hm'
    exact Or.inl ⟨hj, by rw [hm'], (Option.some.inj hlinks).symm⟩
  · exact Or.inr hold
  · rw [hkids q] at hlinks
    cases hlinks

/-- Splitting a childless node adds the links to its four children, and no other. -/
theorem linked_divide_iff (hid : s.nodes[id]? = some n) (hn : n.children = none)
    (hkids : ∀ q, (kids.get q).children = none) {p c : Nat} {q : Quadrant} :
    Linked (s.divide id node kids).nodes p q c ↔
      Linked s.nodes p q c ∨ (p = id ∧ c = (placesFrom s.nodes.size).get q) := by
  constructor
  · intro hlink
    obtain ⟨m, links, hm, hlinks, rfl⟩ := hlink
    rcases branch_divide_cases hid hkids hm hlinks with ⟨hp, -, rfl⟩ | ⟨-, hold⟩
    · exact Or.inr ⟨hp, rfl⟩
    · exact Or.inl ⟨m, links, hold, hlinks, rfl⟩
  · intro hcases
    rcases hcases with ⟨m, links, hm, hlinks, rfl⟩ | ⟨rfl, rfl⟩
    · have hlt := (Array.getElem?_eq_some_iff.mp hm).1
      have hne : id ≠ p := by
        intro heq
        subst heq
        rw [hid, Option.some.injEq] at hm
        rw [← hm, hn] at hlinks
        cases hlinks
      exact ⟨m, links, by rw [getElem?_divide_of_lt s id node kids hlt, if_neg hne, hm],
        hlinks, rfl⟩
    · have hlt := (Array.getElem?_eq_some_iff.mp hid).1
      exact ⟨_, placesFrom s.nodes.size,
        by rw [getElem?_divide_of_lt s p node kids hlt, if_pos rfl, hid]; rfl, rfl, rfl⟩

/-- Splitting a childless node gives one more node children. -/
theorem branchCount_divide (hid : s.nodes[id]? = some n) (hn : n.children = none)
    (hkids : ∀ q, (kids.get q).children = none) :
    branchCount (s.divide id node kids).nodes = branchCount s.nodes + 1 := by
  obtain ⟨hlt, hget⟩ := Array.getElem?_eq_some_iff.mp hid
  have hlength : id < s.nodes.toList.length := by simpa using hlt
  obtain ⟨front, m, back, hsplit, hfront, hmodify⟩ := List.exists_of_modify
    (fun n : Node => { n with children := some (placesFrom s.nodes.size) }) hlength
  have hm : m = n := by
    have : s.nodes.toList[id]? = some m := by rw [hsplit]; simp [← hfront]
    rw [Array.getElem?_toList, hid] at this
    exact (Option.some.inj this).symm
  have hnew : kids.toList.countP (fun n => n.children.isSome) = 0 := by
    refine List.countP_eq_zero.mpr fun c hc => ?_
    obtain ⟨q, rfl⟩ := Quadrants.mem_toList.mp hc
    simp [hkids q]
  have hold : branchCount s.nodes =
      front.countP (fun n => n.children.isSome) + back.countP (fun n => n.children.isSome) := by
    rw [branchCount, ← Array.countP_toList, hsplit]
    simp [hm, hn]
  rw [hold, branchCount, ← Array.countP_toList, divide, Array.toList_append,
    Array.toList_modify, hmodify, List.countP_append, hnew]
  simp
  omega

end

variable {points : Array (Point α)} {splitThreshold limit : Nat} {root : Node}

/-- The node on top is done with if it is not to be split. -/
theorem Growth.settle {nodes : Array Node} {id : Nat} {n : Node} {rest : List Nat}
    (h : Growth points splitThreshold limit root nodes (id :: rest)) (hid : nodes[id]? = some n)
    (hstop : n.points.size ≤ splitThreshold ∨ limit < n.key.lod) :
    Growth points splitThreshold limit root nodes rest := by
  refine { h with waits := ?_, distinct := (List.nodup_cons.mp h.distinct).2, stopped := ?_ }
  · intro j hj
    exact h.waits (List.mem_cons_of_mem _ hj)
  · intro j m hm hchildless hj
    by_cases heq : j = id
    · rw [heq, hid, Option.some.injEq] at hm
      exact hm ▸ hstop
    · exact h.stopped hm hchildless fun hmem => (List.mem_cons.mp hmem).elim heq hj

section

variable {s : Subdivision} {id : Nat} {n : Node} {kids : Quadrants Node} {rest : List Nat}

/-- The node on top has no children yet. -/
theorem Growth.childless_top (h : Growth points splitThreshold limit root s.nodes (id :: rest))
    (hid : s.nodes[id]? = some n) : n.children = none := by
  obtain ⟨m, hm, hchildless⟩ := h.waits List.mem_cons_self
  rw [hid, Option.some.injEq] at hm
  rwa [hm]

/-- The nodes that a split makes have no children yet. -/
theorem childless_kids (hkids : n.split points = .ok kids) (q : Quadrant) :
    (kids.get q).children = none :=
  (Node.childIn_parts (Node.split_eq_ok_iff.mp hkids q)).2.2.2

/-- A node that is not split stays as it is. -/
theorem getElem?_divide_of_ne {j : Nat} {m : Node} (hj : j ≠ id) (hm : s.nodes[j]? = some m) :
    (s.divide id n kids).nodes[j]? = some m := by
  have hlt := (Array.getElem?_eq_some_iff.mp hm).1
  rw [getElem?_divide_of_lt s id n kids hlt, if_neg (Ne.symm hj), hm]

/-- A node that is split gets links to four places behind all others. -/
theorem getElem?_divide_self (hid : s.nodes[id]? = some n) :
    (s.divide id n kids).nodes[id]? =
      some { n with children := some (placesFrom s.nodes.size) } := by
  have hlt := (Array.getElem?_eq_some_iff.mp hid).1
  rw [getElem?_divide_of_lt s id n kids hlt, if_pos rfl, hid, Option.map_some]

private theorem waits_divide (h : Growth points splitThreshold limit root s.nodes (id :: rest))
    (hkids : n.split points = .ok kids) {j : Nat}
    (hj : j ∈ (placesFrom s.nodes.size).toList ++ rest) :
    ∃ m, (s.divide id n kids).nodes[j]? = some m ∧ m.children = none := by
  rcases List.mem_append.mp hj with hnew | hj
  · obtain ⟨q, rfl⟩ := Quadrants.mem_toList.mp hnew
    exact ⟨_, getElem?_divide_kid s id n kids q, childless_kids hkids q⟩
  · obtain ⟨m, hm, hchildless⟩ := h.waits (List.mem_cons_of_mem _ hj)
    have hne : j ≠ id := fun heq => (List.nodup_cons.mp h.distinct).1 (heq ▸ hj)
    exact ⟨m, getElem?_divide_of_ne hne hm, hchildless⟩

private theorem distinct_divide (h : Growth points splitThreshold limit root s.nodes (id :: rest)) :
    ((placesFrom s.nodes.size).toList ++ rest).Nodup := by
  refine List.nodup_append.mpr
    ⟨nodup_placesFrom _, (List.nodup_cons.mp h.distinct).2, ?_⟩
  intro i hi j hj heq
  subst heq
  obtain ⟨q, rfl⟩ := Quadrants.mem_toList.mp hi
  obtain ⟨m, hm, -⟩ := h.waits (List.mem_cons_of_mem _ hj)
  have := (Array.getElem?_eq_some_iff.mp hm).1
  have := (le_placesFrom s.nodes.size q).1
  omega

private theorem stopped_divide (h : Growth points splitThreshold limit root s.nodes (id :: rest))
    {j : Nat} {m : Node} (hm : (s.divide id n kids).nodes[j]? = some m)
    (hchildless : m.children = none) (hj : j ∉ (placesFrom s.nodes.size).toList ++ rest) :
    m.points.size ≤ splitThreshold ∨ limit < m.key.lod := by
  rcases divide_cases hm with ⟨-, m', -, rfl⟩ | ⟨hne, hold⟩ | ⟨q, rfl, -⟩
  · cases hchildless
  · refine h.stopped hold hchildless fun hmem => ?_
    rcases List.mem_cons.mp hmem with heq | hmem
    · exact hne heq
    · exact hj (List.mem_append_right _ hmem)
  · exact absurd (List.mem_append_left _ (Quadrants.mem_toList.mpr ⟨q, rfl⟩)) hj

private theorem child_divide (h : Growth points splitThreshold limit root s.nodes (id :: rest))
    (hid : s.nodes[id]? = some n) (hkids : n.split points = .ok kids) {j : Nat} {m : Node}
    {links : Quadrants Nat} (hm : (s.divide id n kids).nodes[j]? = some m)
    (hlinks : m.children = some links) (q : Quadrant) :
    ∃ c, (s.divide id n kids).nodes[links.get q]? = some c ∧ m.childIn points q = .ok c.bare := by
  rcases branch_divide_cases hid (childless_kids hkids) hm hlinks with ⟨-, rfl, rfl⟩ | ⟨-, hold⟩
  · refine ⟨kids.get q, getElem?_divide_kid s id n kids q, ?_⟩
    rw [Node.bare_of_childless (childless_kids hkids q)]
    exact Node.split_eq_ok_iff.mp hkids q
  · obtain ⟨c, hc, hchild⟩ := h.child hold hlinks q
    by_cases hcid : links.get q = id
    · rw [hcid, hid, Option.some.injEq] at hc
      subst hc
      exact ⟨{ n with children := some (placesFrom s.nodes.size) },
        by rw [hcid]; exact getElem?_divide_self hid, hchild⟩
    · exact ⟨c, getElem?_divide_of_ne hcid hc, hchild⟩

private theorem parent_divide (h : Growth points splitThreshold limit root s.nodes (id :: rest))
    (hid : s.nodes[id]? = some n) (hkids : n.split points = .ok kids) {j : Nat} (hpos : 0 < j)
    (hj : j < (s.divide id n kids).nodes.size) :
    ∃ p q, Linked (s.divide id n kids).nodes p q j := by
  have hlinks : ∀ p q, Linked (s.divide id n kids).nodes p q j ↔
      Linked s.nodes p q j ∨ (p = id ∧ j = (placesFrom s.nodes.size).get q) := fun p q =>
    linked_divide_iff hid (h.childless_top hid) (childless_kids hkids)
  by_cases hlt : j < s.nodes.size
  · obtain ⟨p, q, hlink⟩ := h.parent hpos hlt
    exact ⟨p, q, (hlinks p q).mpr (Or.inl hlink)⟩
  · rcases divide_cases (Array.getElem?_eq_getElem hj) with ⟨rfl, -⟩ | ⟨-, hold⟩ | ⟨q, rfl, -⟩
    · exact absurd (Array.getElem?_eq_some_iff.mp hid).1 hlt
    · exact absurd (Array.getElem?_eq_some_iff.mp hold).1 hlt
    · exact ⟨id, q, (hlinks id q).mpr (Or.inr ⟨rfl, rfl⟩)⟩

/-- An old link leads to an old place and a new one behind all of them, so they never meet. -/
private theorem unique_divide (h : Growth points splitThreshold limit root s.nodes (id :: rest))
    (hid : s.nodes[id]? = some n) (hkids : n.split points = .ok kids) {p p' c : Nat}
    {q q' : Quadrant} (hlink : Linked (s.divide id n kids).nodes p q c)
    (hlink' : Linked (s.divide id n kids).nodes p' q' c) : p = p' ∧ q = q' := by
  have hn := h.childless_top hid
  rcases (linked_divide_iff hid hn (childless_kids hkids)).mp hlink with hold | ⟨rfl, rfl⟩ <;>
    rcases (linked_divide_iff hid hn (childless_kids hkids)).mp hlink' with hold' | ⟨rfl, heq⟩
  · exact h.unique hold hold'
  · have := (h.lt_of_linked hold).2
    have := (le_placesFrom s.nodes.size q').1
    omega
  · have := (h.lt_of_linked hold').2
    have := (le_placesFrom s.nodes.size q).1
    omega
  · exact ⟨rfl, placesFrom_injective heq⟩

/-- The node on top makes room for its four children if it is split. -/
theorem Growth.divide (h : Growth points splitThreshold limit root s.nodes (id :: rest))
    (hid : s.nodes[id]? = some n) (hmany : splitThreshold < n.points.size)
    (hlod : n.key.lod ≤ limit) (hkids : n.split points = .ok kids) :
    Growth points splitThreshold limit root (s.divide id n kids).nodes
      ((placesFrom s.nodes.size).toList ++ rest) := by
  have hsize := size_divide s id n kids
  refine
    { first := ?_
      waits := waits_divide h hkids
      distinct := distinct_divide h
      stopped := stopped_divide h
      divided := ?_
      placed := ?_
      child := child_divide h hid hkids
      parent := parent_divide h hid hkids
      unique := unique_divide h hid hkids
      size_eq := ?_ }
  · obtain ⟨r, hr, hbare⟩ := h.first
    by_cases hzero : 0 = id
    · subst hzero
      rw [hid, Option.some.injEq] at hr
      subst hr
      exact ⟨_, getElem?_divide_self hid, hbare⟩
    · exact ⟨r, getElem?_divide_of_ne hzero hr, hbare⟩
  · intro j m links hm hlinks
    rcases branch_divide_cases hid (childless_kids hkids) hm hlinks with ⟨-, rfl, -⟩ | ⟨-, hold⟩
    · exact ⟨hmany, hlod⟩
    · exact h.divided hold hlinks
  · intro j m links hm hlinks
    rcases branch_divide_cases hid (childless_kids hkids) hm hlinks with ⟨rfl, -, rfl⟩ | ⟨-, hold⟩
    · exact ⟨s.nodes.size, rfl, (Array.getElem?_eq_some_iff.mp hid).1, by omega⟩
    · obtain ⟨place, rfl, hlt, hle⟩ := h.placed hold hlinks
      exact ⟨place, rfl, hlt, by omega⟩
  · rw [hsize, branchCount_divide hid (h.childless_top hid) (childless_kids hkids), h.size_eq]
    omega

end

/-- One look keeps the node array in order. -/
theorem Growth.look {a b : Subdivision × List Nat}
    (h : Growth points splitThreshold limit root a.1.nodes a.2)
    (hlook : Look points splitThreshold limit a b) :
    Growth points splitThreshold limit root b.1.nodes b.2 := by
  cases hlook with
  | few hnode hfew => exact h.settle hnode (Or.inl hfew)
  | deep hnode _ hdeep => exact h.settle hnode (Or.inr hdeep)
  | split hnode hmany hlod hkids => exact h.divide hnode hmany hlod hkids

/-- Any number of looks keeps the node array in order. -/
theorem Growth.looks {a b : Subdivision × List Nat}
    (h : Growth points splitThreshold limit root a.1.nodes a.2)
    (hlooks : Looks points splitThreshold limit a b) :
    Growth points splitThreshold limit root b.1.nodes b.2 := by
  induction hlooks with
  | refl => exact h
  | tail _ hlook ih => exact ih.look hlook

/-- What holds of the root, and of the children of every node of which it holds, holds of every
node. -/
theorem Growth.node_induction {nodes : Array Node} {waiting : List Nat} {P : Node → Prop}
    (h : Growth points splitThreshold limit root nodes waiting) (hroot : P root)
    (hchild : ∀ {n c : Node} {q : Quadrant}, P n → n.childIn points q = .ok c → P c) :
    ∀ {id : Nat} {n : Node}, nodes[id]? = some n → P n.bare := by
  intro id
  -- A parent stands in front of its children.
  induction id using Nat.strongRecOn with
  | ind id ih =>
      intro n hn
      by_cases hzero : id = 0
      · obtain ⟨r, hr, hbare⟩ := h.first
        rw [hzero, hr, Option.some.injEq] at hn
        rw [← hn, hbare]
        exact hroot
      · obtain ⟨p, q, hlink⟩ := h.parent (Nat.pos_of_ne_zero hzero)
          (Array.getElem?_eq_some_iff.mp hn).1
        have hlt := (h.lt_of_linked hlink).1
        obtain ⟨m, kids, hm, hkids, hget⟩ := hlink
        obtain ⟨c, hc, hin⟩ := h.child hm hkids q
        rw [hget, hn, Option.some.injEq] at hc
        rw [hc]
        exact hchild (ih p hlt hm) hin

/-- What holds of the childless nodes, and of every node whose children all have it, holds of every
node. -/
theorem Growth.leaf_induction {nodes : Array Node} {waiting : List Nat} {P : Nat → Node → Prop}
    (h : Growth points splitThreshold limit root nodes waiting)
    (hleaf : ∀ {id : Nat} {n : Node}, nodes[id]? = some n → n.children = none → P id n)
    (hbranch : ∀ {id : Nat} {n : Node} {kids : Quadrants Nat}, nodes[id]? = some n →
      n.children = some kids → (∀ q, ∃ c, nodes[kids.get q]? = some c ∧
        n.childIn points q = .ok c.bare ∧ P (kids.get q) c) → P id n) :
    ∀ {id : Nat} {n : Node}, nodes[id]? = some n → P id n := by
  intro id
  -- Children stand behind their parent, so the nodes behind a node come first.
  induction hbehind : nodes.size - id using Nat.strongRecOn generalizing id with
  | ind k ih =>
      intro n hn
      cases hkids : n.children with
      | none => exact hleaf hn hkids
      | some kids =>
          apply hbranch hn hkids
          intro q
          obtain ⟨c, hc, hin⟩ := h.child hn hkids q
          have hlt := h.lt_of_linked ⟨n, kids, hn, hkids, rfl⟩ (q := q)
          exact ⟨c, hc, hin, ih _ (by omega) rfl hc⟩

end QuadCode
