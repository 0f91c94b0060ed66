import QuadCode.Key.Basic

/-!
# Codes

A cell is reached from the whole plane by choosing a quadrant at each level.  The path of a key is
that list of choices, and its code is the path written with one digit per choice.  The digits of a
code are those of the column and the row in base two, the first digit for the first halving.

Main definitions:

* `Key.path` is the path to a key's cell and `Key.ofPath` is the key at the end of a path;
* `Key.code` writes a key as a code;
* `Key.decode` reads a code, and tells the first character that is not a digit of codes.

Main statements:

* `path_ofPath` and `ofPath_path`: keys and paths of at most `maxLod` steps are the same thing.
-/

namespace QuadCode

/-- The path to a place on the grid of a level: its last step is told by the lowest bits. -/
def gridPath : (lod x y : Nat) → List Quadrant
  | 0, _, _ => []
  | lod + 1, x, y => gridPath lod (x / 2) (y / 2) ++ [Quadrant.ofBits x y]

/-- The number whose bits, from the first to the last, are those of a path on one axis. -/
def pathNumber (bit : Quadrant → Nat) (path : List Quadrant) : Nat :=
  path.foldl (fun n q => 2 * n + bit q) 0

/-- A path of a given length leads to a place on the grid of that level. -/
theorem pathNumber_lt {bit : Quadrant → Nat} (hbit : ∀ q, bit q < 2) (path : List Quadrant) :
    pathNumber bit path < gridSize path.length := by
  have general : ∀ (path : List Quadrant) (n k : Nat), n < gridSize k →
      path.foldl (fun n q => 2 * n + bit q) n < gridSize (k + path.length) := by
    intro path
    induction path with
    | nil => intro n k hn; simpa using hn
    | cons q rest ih =>
      intro n k hn
      have hq := hbit q
      have hstep : 2 * n + bit q < gridSize (k + 1) := by rw [gridSize]; omega
      have := ih _ _ hstep
      simpa [List.length_cons, Nat.add_assoc, Nat.add_comm 1] using this
  simpa [pathNumber] using general path 0 0 (by decide)

/-- One more step adds one bit. -/
theorem pathNumber_concat (bit : Quadrant → Nat) (path : List Quadrant) (q : Quadrant) :
    pathNumber bit (path ++ [q]) = 2 * pathNumber bit path + bit q := by
  simp [pathNumber]

/-- A path has one step per level. -/
theorem length_gridPath (lod x y : Nat) : (gridPath lod x y).length = lod := by
  induction lod generalizing x y with
  | zero => rfl
  | succ lod ih => simp [gridPath, ih]

/-- One more pair of bits adds one step. -/
theorem gridPath_concat (lod x y : Nat) (q : Quadrant) :
    gridPath (lod + 1) (2 * x + q.xBit) (2 * y + q.yBit) = gridPath lod x y ++ [q] := by
  have hx : (2 * x + q.xBit) / 2 = x := by have := q.xBit_lt; omega
  have hy : (2 * y + q.yBit) / 2 = y := by have := q.yBit_lt; omega
  have hq : Quadrant.ofBits (2 * x + q.xBit) (2 * y + q.yBit) = q := by
    cases q <;> simp [Quadrant.ofBits, Quadrant.xBit, Quadrant.yBit]
  rw [gridPath, hx, hy, hq]

/-- A path is the path to the place whose bits it spells. -/
theorem gridPath_pathNumber (path : List Quadrant) :
    gridPath path.length (pathNumber Quadrant.xBit path) (pathNumber Quadrant.yBit path) =
      path := by
  induction hn : path.length generalizing path with
  | zero => rw [List.length_eq_zero_iff.mp hn]; rfl
  | succ n ih =>
    obtain ⟨front, last, rfl⟩ : ∃ front last, path = front ++ [last] := by
      refine ⟨path.dropLast, path.getLast ?_, (List.dropLast_concat_getLast _).symm⟩
      intro heq
      subst heq
      simp at hn
    have hfront : front.length = n := by simpa using hn
    rw [pathNumber_concat, pathNumber_concat, gridPath_concat, ih front hfront]

/-- The bits of the path to a place spell its coordinates. -/
theorem pathNumber_gridPath {lod x y : Nat} (hx : x < gridSize lod) (hy : y < gridSize lod) :
    pathNumber Quadrant.xBit (gridPath lod x y) = x ∧
      pathNumber Quadrant.yBit (gridPath lod x y) = y := by
  induction lod generalizing x y with
  | zero => simp_all [gridPath, pathNumber, gridSize]
  | succ lod ih =>
    rw [gridSize] at hx hy
    obtain ⟨ihx, ihy⟩ := @ih (x / 2) (y / 2) (by omega) (by omega)
    have bits : (Quadrant.ofBits x y).xBit = x % 2 ∧ (Quadrant.ofBits x y).yBit = y % 2 := by
      rcases Nat.mod_two_eq_zero_or_one x with h | h <;>
        rcases Nat.mod_two_eq_zero_or_one y with h' | h' <;>
        simp [Quadrant.ofBits, Quadrant.xBit, Quadrant.yBit, h, h']
    rw [gridPath, pathNumber_concat, pathNumber_concat, ihx, ihy, bits.1, bits.2]
    omega

/-- The first character that is not a digit of codes, with its position counted in characters. -/
def firstForeign (position : Nat) : List Char → Option (Nat × Char)
  | [] => none
  | c :: rest =>
    match Quadrant.ofDigit? c with
    | none => some (position, c)
    | some _ => firstForeign (position + 1) rest

namespace Key

/-- The path to the key's cell. -/
def path (k : Key) : List Quadrant :=
  gridPath k.lod k.x k.y

/-- The key at the end of a path that is not too long. -/
def ofPath (path : List Quadrant) (h : path.length ≤ maxLod) : Key :=
  ⟨path.length, pathNumber Quadrant.xBit path, pathNumber Quadrant.yBit path, h,
    pathNumber_lt Quadrant.xBit_lt path, pathNumber_lt Quadrant.yBit_lt path⟩

/-- The path to the key at the end of a path is that path. -/
theorem path_ofPath (path : List Quadrant) (h : path.length ≤ maxLod) :
    (ofPath path h).path = path :=
  gridPath_pathNumber path

/-- The key at the end of the path to a key is that key. -/
theorem ofPath_path (k : Key) (h : k.path.length ≤ maxLod) : ofPath k.path h = k := by
  obtain ⟨hx, hy⟩ := pathNumber_gridPath k.x_lt k.y_lt
  cases k with
  | mk lod x y => simp [ofPath, path, length_gridPath, hx, hy]

/-- The code of a key: one digit per level. -/
def code (k : Key) : String :=
  String.ofList (k.path.map Quadrant.digit)

/-- The most that the level of a refused key can be told as. -/
def lodCap : Nat := UInt32.size - 1

/-- The key with the given code.  A code with too many characters is refused before any of them
is looked at. -/
def decode (code : String) : Except Error Key :=
  let letters := code.toList
  if h : letters.length ≤ maxLod then
    match firstForeign 0 letters with
    | some (position, found) => .error (.invalidCode code position found)
    | none =>
      .ok (ofPath (letters.filterMap Quadrant.ofDigit?)
        (Nat.le_trans (List.length_filterMap_le _ _) h))
  else .error (.invalidKey (min letters.length lodCap) 0 0)

end Key

end QuadCode
