import QuadCode.Error
import QuadCode.Quadrant

/-!
# Keys

A key names a cell of the plane that is halved again and again on both axes: its level of detail
says how often, and its two grid coordinates say which of the columns and rows of that level it
stands in.  Each level has twice as many of them as the one above.  A key carries the proof that
its coordinates lie on the grid.

Main definitions:

* `Key.ofGrid` makes a key from any three numbers, or says that they do not fit;
* `Key.child` and `Key.parent` go one level down and up;
* keys are ordered by level, then column, then row.
-/

namespace QuadCode

/-- The deepest level that a key can address. -/
def maxLod : Nat := 63

/-- How many columns, and as many rows, the grid of a level has. -/
def gridSize : (lod : Nat) → Nat
  | 0 => 1
  | lod + 1 => 2 * gridSize lod

/-- The name of a cell: its level of detail and its place on the grid of that level. -/
structure Key where
  lod : Nat
  x : Nat
  y : Nat
  lod_le : lod ≤ maxLod
  x_lt : x < gridSize lod
  y_lt : y < gridSize lod
  deriving DecidableEq

namespace Key

/-- The key of the undivided plane. -/
def root : Key :=
  ⟨0, 0, 0, by decide, by decide, by decide⟩

/-- The key with the given level and coordinates, if the level is addressable and the coordinates
lie on its grid. -/
def ofGrid (lod x y : Nat) : Except Error Key :=
  if hl : lod ≤ maxLod then
    if h : x < gridSize lod ∧ y < gridSize lod then .ok ⟨lod, x, y, hl, h.1, h.2⟩
    else .error (.invalidKey lod x y)
  else .error (.invalidKey lod x y)

/-- A key made from a level and coordinates has that level and those coordinates. -/
theorem eq_of_ofGrid {lod x y : Nat} {k : Key} (h : ofGrid lod x y = .ok k) :
    k.lod = lod ∧ k.x = x ∧ k.y = y := by
  unfold ofGrid at h
  split at h
  · split at h
    · cases h; exact ⟨rfl, rfl, rfl⟩
    · cases h
  · cases h

/-- Whether the key names the undivided plane. -/
def isRoot (k : Key) : Bool :=
  k.lod == 0

/-- The key of a quadrant of the cell. -/
def child (k : Key) (q : Quadrant) : Except Error Key :=
  ofGrid (k.lod + 1) (2 * k.x + q.xBit) (2 * k.y + q.yBit)

/-- A child is one level deeper. -/
theorem lod_of_child {k c : Key} {q : Quadrant} (h : k.child q = .ok c) : c.lod = k.lod + 1 :=
  (eq_of_ofGrid h).1

/-- Every quadrant of a cell has a key as soon as there is a level for it. -/
theorem exists_child {k : Key} (h : k.lod < maxLod) (q : Quadrant) :
    ∃ c, k.child q = .ok c := by
  have hx : 2 * k.x + q.xBit < gridSize (k.lod + 1) := by
    have := k.x_lt
    have := q.xBit_lt
    rw [gridSize]
    omega
  have hy : 2 * k.y + q.yBit < gridSize (k.lod + 1) := by
    have := k.y_lt
    have := q.yBit_lt
    rw [gridSize]
    omega
  exact ⟨⟨k.lod + 1, 2 * k.x + q.xBit, 2 * k.y + q.yBit, h, hx, hy⟩,
    by rw [child, ofGrid, dif_pos (Nat.succ_le_of_lt h), dif_pos ⟨hx, hy⟩]⟩

/-- The key of the cell that this one is a quadrant of. -/
def parent (k : Key) : Option Key :=
  match k with
  | ⟨0, _, _, _, _, _⟩ => none
  | ⟨lod + 1, x, y, hl, hx, hy⟩ =>
    some ⟨lod, x / 2, y / 2, Nat.le_of_succ_le hl,
      Nat.div_lt_of_lt_mul hx, Nat.div_lt_of_lt_mul hy⟩

/-- Keys are ordered by level, then column, then row. -/
instance : Ord Key where
  compare a b := (compare a.lod b.lod).then ((compare a.x b.x).then (compare a.y b.y))

/-- Keys in increasing order; equal ones are all kept. -/
def sort (ks : List Key) : List Key :=
  ks.mergeSort fun a b => (compare a b).isLE

end Key

end QuadCode
