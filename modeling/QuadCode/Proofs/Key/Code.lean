import Mathlib.Algebra.Order.Ring.Nat
import QuadCode.Key.Code

/-!
# A key and its code

A key and its code say the same.  Writing a key gives one digit for each level, and the digit at a
place is told by one bit of each coordinate, the highest bits first.  Reading takes exactly the
strings of at most `maxLod` digits, and gives the one key that is written that way.

Main statements:

* `getElem?_code`: the digit at a place is the one for a bit of the column and a bit of the row;
* `decode_eq_ok_iff`: a string is read as a key if and only if the key is written as that string;
* `exists_code_iff`: the strings that keys are written as;
* `exists_decode_cut`: the first digits of a code name the cell above;
* `code_decode_inverse`: writing and reading are inverse to each other.
-/

namespace QuadCode

theorem gridSize_eq (lod : Nat) : gridSize lod = 2 ^ lod := by
  induction lod with
  | zero => rfl
  | succ lod ih => rw [gridSize, ih, Nat.pow_succ, Nat.mul_comm]

namespace Quadrant

/-- The digits of codes are the characters that stand for a quadrant. -/
theorem mem_digits_iff {c : Char} : c ∈ ['0', '1', '2', '3'] ↔ ∃ q, digit q = c := by
  constructor
  · intro h
    simp only [List.mem_cons, List.not_mem_nil, or_false] at h
    rcases h with rfl | rfl | rfl | rfl
    · exact ⟨bottomLeft, rfl⟩
    · exact ⟨bottomRight, rfl⟩
    · exact ⟨topLeft, rfl⟩
    · exact ⟨topRight, rfl⟩
  · intro h
    obtain ⟨q, rfl⟩ := h
    cases q <;> decide

/-- The digit for two bits counts one for the horizontal bit and two for the vertical one. -/
theorem digit_ofBits (x y : Nat) :
    some (ofBits x y).digit =
      ['0', '1', '2', '3'][(x.testBit 0).toNat + 2 * (y.testBit 0).toNat]? := by
  rcases Nat.mod_two_eq_zero_or_one x with hx | hx <;>
    rcases Nat.mod_two_eq_zero_or_one y with hy | hy <;>
    simp [ofBits, digit, Nat.testBit_zero, hx, hy]

end Quadrant

/-- A step of the path to a place on a grid is told by one bit of each coordinate. -/
theorem getElem?_gridPath {lod i : Nat} (hi : i < lod) (x y : Nat) :
    ((gridPath lod x y)[i]?).map Quadrant.digit =
      ['0', '1', '2', '3'][(x.testBit (lod - 1 - i)).toNat +
        2 * (y.testBit (lod - 1 - i)).toNat]? := by
  induction lod generalizing x y with
  | zero => omega
  | succ lod ih =>
      rw [gridPath]
      by_cases hlast : i = lod
      · rw [List.getElem?_append_right (by rw [length_gridPath]; omega), length_gridPath, hlast,
          show lod + 1 - 1 - lod = 0 by omega, Nat.sub_self, ← Quadrant.digit_ofBits]
        rfl
      · have hlt : i < lod := by omega
        have hbit : lod + 1 - 1 - i = lod - 1 - i + 1 := by omega
        rw [List.getElem?_append_left (by rw [length_gridPath]; exact hlt), ih hlt, hbit,
          Nat.testBit_succ, Nat.testBit_succ]

/-- The path to a cell of a grid begins with the path to the cell of any grid above that it lies
in. -/
theorem gridPath_prefix (lod deeper x y : Nat) :
    gridPath lod (x / 2 ^ deeper) (y / 2 ^ deeper) <+: gridPath (lod + deeper) x y := by
  induction deeper generalizing x y with
  | zero => simp
  | succ deeper ih =>
      have hhalf (n : Nat) : n / 2 ^ (deeper + 1) = n / 2 / 2 ^ deeper := by
        rw [Nat.div_div_eq_div_mul, pow_succ']
      rw [hhalf, hhalf, ← Nat.add_assoc, gridPath]
      exact (ih (x / 2) (y / 2)).trans (List.prefix_append _ _)

theorem digit_injective : Function.Injective Quadrant.digit := by
  intro q q' h
  have hread := congrArg Quadrant.ofDigit? h
  rw [Quadrant.ofDigit?_digit, Quadrant.ofDigit?_digit] at hread
  exact Option.some.inj hread

/-- Letters without a foreign one are the digits of the quadrants that they stand for. -/
theorem map_digit_filterMap {letters : List Char} (h : ∀ c ∈ letters, c ∈ ['0', '1', '2', '3']) :
    (letters.filterMap Quadrant.ofDigit?).map Quadrant.digit = letters := by
  induction letters with
  | nil => rfl
  | cons c rest ih =>
      obtain ⟨q, rfl⟩ := Quadrant.mem_digits_iff.mp (h c List.mem_cons_self)
      rw [List.filterMap_cons_some (Quadrant.ofDigit?_digit q), List.map_cons,
        ih fun c hc => h c (List.mem_cons_of_mem _ hc)]

theorem filterMap_map_digit (path : List Quadrant) :
    (path.map Quadrant.digit).filterMap Quadrant.ofDigit? = path := by
  rw [List.filterMap_map, show Quadrant.ofDigit? ∘ Quadrant.digit = some from
    funext Quadrant.ofDigit?_digit, List.filterMap_some]

/-- No letter is foreign if and only if each is a digit of codes. -/
theorem firstForeign_eq_none_iff {position : Nat} {letters : List Char} :
    firstForeign position letters = none ↔ ∀ c ∈ letters, c ∈ ['0', '1', '2', '3'] := by
  induction letters generalizing position with
  | nil => simp [firstForeign]
  | cons c rest ih =>
      rw [firstForeign, List.forall_mem_cons]
      cases hc : Quadrant.ofDigit? c with
      | none =>
          refine iff_of_false (by simp) fun h => ?_
          obtain ⟨q, rfl⟩ := Quadrant.mem_digits_iff.mp h.1
          rw [Quadrant.ofDigit?_digit] at hc
          cases hc
      | some q =>
          have hdigit := Quadrant.mem_digits_iff.mpr ⟨q, Quadrant.digit_of_ofDigit? hc⟩
          exact ih.trans ⟨fun h => ⟨hdigit, h⟩, And.right⟩

namespace Key

theorem x_lt_two_pow (k : Key) : k.x < 2 ^ k.lod :=
  gridSize_eq k.lod ▸ k.x_lt

theorem y_lt_two_pow (k : Key) : k.y < 2 ^ k.lod :=
  gridSize_eq k.lod ▸ k.y_lt

/-- Exactly the numbers that fit a level make a key. -/
theorem exists_ofGrid_iff {lod x y : Nat} :
    (∃ k, ofGrid lod x y = .ok k) ↔ lod ≤ 63 ∧ x < 2 ^ lod ∧ y < 2 ^ lod := by
  rw [← gridSize_eq]
  unfold ofGrid
  constructor
  · intro h
    obtain ⟨k, hk⟩ := h
    split at hk
    · rename_i hlod
      split at hk
      · rename_i hgrid
        exact ⟨hlod, hgrid⟩
      · cases hk
    · cases hk
  · intro h
    obtain ⟨hlod, hgrid⟩ := h
    exact ⟨_, by rw [dif_pos (show lod ≤ maxLod from hlod), dif_pos hgrid]⟩

/-- The level and the coordinates of a key make that key. -/
theorem ofGrid_self (k : Key) : ofGrid k.lod k.x k.y = .ok k := by
  rw [ofGrid, dif_pos k.lod_le, dif_pos ⟨k.x_lt, k.y_lt⟩]

theorem length_path (k : Key) : k.path.length = k.lod :=
  length_gridPath k.lod k.x k.y

/-- The path to a child goes one step further. -/
theorem path_child {k c : Key} {q : Quadrant} (h : k.child q = .ok c) : c.path = k.path ++ [q] := by
  obtain ⟨hlod, hx, hy⟩ := eq_of_ofGrid h
  rw [path, hlod, hx, hy]
  exact gridPath_concat k.lod k.x k.y q

theorem toList_code (k : Key) : k.code.toList = k.path.map Quadrant.digit := by
  rw [code, String.toList_ofList]

/-- A code has one digit for each level. -/
theorem length_code (k : Key) : k.code.length = k.lod := by
  rw [← String.length_toList, toList_code, List.length_map, length_path]

/-- A code begins with another one if and only if its path begins with the other path. -/
theorem code_prefix_iff {k : Key} {path : List Quadrant} :
    k.code.toList <+: path.map Quadrant.digit ↔ k.path <+: path := by
  rw [toList_code]
  exact List.prefix_map_iff_of_injective digit_injective

theorem mem_digits_of_mem_code {k : Key} {c : Char} (h : c ∈ k.code.toList) :
    c ∈ ['0', '1', '2', '3'] := by
  rw [toList_code] at h
  obtain ⟨q, -, hq⟩ := List.mem_map.mp h
  exact Quadrant.mem_digits_iff.mpr ⟨q, hq⟩

/-- The digit at a place of a code is the one for a bit of the column and a bit of the row, the
highest bits at the first place. -/
theorem getElem?_code (k : Key) {i : Nat} (hi : i < k.lod) :
    k.code.toList[i]? = ['0', '1', '2', '3'][(k.x.testBit (k.lod - 1 - i)).toNat +
      2 * (k.y.testBit (k.lod - 1 - i)).toNat]? := by
  rw [toList_code, List.getElem?_map]
  exact getElem?_gridPath hi k.x k.y

theorem decode_of_short {s : String} (h : s.toList.length ≤ maxLod) :
    decode s = match firstForeign 0 s.toList with
      | some (position, found) => .error (.invalidCode s position found)
      | none => .ok (ofPath (s.toList.filterMap Quadrant.ofDigit?)
          (Nat.le_trans (List.length_filterMap_le _ _) h)) := by
  unfold decode
  exact dif_pos h

theorem decode_of_long {s : String} (h : ¬ s.toList.length ≤ maxLod) :
    decode s = .error (.invalidKey (min s.toList.length lodCap) 0 0) := by
  unfold decode
  exact dif_neg h

/-- **Reading is the inverse of writing.**  A string is read as a key if and only if the key is
written as that string. -/
theorem decode_eq_ok_iff {s : String} {k : Key} : decode s = .ok k ↔ k.code = s := by
  constructor
  · intro h
    by_cases hshort : s.toList.length ≤ maxLod
    · rw [decode_of_short hshort] at h
      cases hforeign : firstForeign 0 s.toList with
      | some found => simp [hforeign] at h
      | none =>
          simp only [hforeign, Except.ok.injEq] at h
          rw [← h, code, path_ofPath,
            map_digit_filterMap (firstForeign_eq_none_iff.mp hforeign), String.ofList_toList]
    · rw [decode_of_long hshort] at h
      cases h
  · rintro rfl
    have hshort : k.code.toList.length ≤ maxLod := by
      rw [String.length_toList, length_code]
      exact k.lod_le
    have hforeign : firstForeign 0 k.code.toList = none :=
      firstForeign_eq_none_iff.mpr fun c hc => mem_digits_of_mem_code hc
    rw [decode_of_short hshort, hforeign]
    simp only [toList_code, filterMap_map_digit, ofPath_path]

/-- Keys are written as the strings of at most 63 digits. -/
theorem exists_code_iff {s : String} :
    (∃ k : Key, k.code = s) ↔ s.length ≤ 63 ∧ ∀ c ∈ s.toList, c ∈ ['0', '1', '2', '3'] := by
  constructor
  · rintro ⟨k, rfl⟩
    exact ⟨by rw [length_code]; exact k.lod_le, fun c hc => mem_digits_of_mem_code hc⟩
  · rintro ⟨hlength, hdigits⟩
    have hpath : (s.toList.filterMap Quadrant.ofDigit?).length ≤ maxLod :=
      (List.length_filterMap_le _ _).trans (by rw [String.length_toList]; exact hlength)
    refine ⟨ofPath _ hpath, ?_⟩
    rw [code, path_ofPath, map_digit_filterMap hdigits, String.ofList_toList]

/-- The first digits of a code. -/
def cut (code : String) (length : Nat) : String :=
  String.ofList (code.toList.take length)

/-- **A code cut short names the cell above.**  The first digits of a key's code are the code of the
key of that level whose column and row are those of the key without their last bits. -/
theorem exists_decode_cut (k : Key) {lod : Nat} (hle : lod ≤ k.lod) :
    ∃ above, decode (cut k.code lod) = .ok above ∧ above.lod = lod ∧
      above.x = k.x / 2 ^ (k.lod - lod) ∧ above.y = k.y / 2 ^ (k.lod - lod) := by
  obtain ⟨deeper, hlod⟩ := Nat.exists_eq_add_of_le hle
  have hdeeper : k.lod - lod = deeper := by omega
  have hfits {n : Nat} (hn : n < 2 ^ k.lod) : n / 2 ^ deeper < 2 ^ lod := by
    rw [Nat.div_lt_iff_lt_mul (Nat.two_pow_pos deeper), ← pow_add, ← hlod]
    exact hn
  have hmax : k.lod ≤ 63 := k.lod_le
  obtain ⟨above, habove⟩ := exists_ofGrid_iff.mpr
    ⟨by omega, hfits k.x_lt_two_pow, hfits k.y_lt_two_pow⟩
  obtain ⟨hlod', hx, hy⟩ := eq_of_ofGrid habove
  rw [hdeeper]
  refine ⟨above, decode_eq_ok_iff.mpr ?_, hlod', hx, hy⟩
  have hstart : above.path <+: k.path := by
    rw [path, path, hlod', hx, hy, hlod]
    exact gridPath_prefix lod deeper k.x k.y
  rw [cut, code, toList_code, ← List.map_take, List.prefix_iff_eq_take.mp hstart, length_path,
    hlod']

/-- **Keys and codes are the same thing.**  The numbers that fit a level make a key.  It is written
with one digit for each level, which is told by one bit of each coordinate, and what is written is
read as that key.  A string is read if and only if it has at most 63 characters and all of them are
digits of codes, and what it is read as is a key whose numbers fit and which is written as that
string. -/
theorem code_decode_inverse :
    (∀ lod x y : Nat, (∃ k, ofGrid lod x y = .ok k) ↔ lod ≤ 63 ∧ x < 2 ^ lod ∧ y < 2 ^ lod) ∧
    (∀ (lod x y : Nat) (k : Key), ofGrid lod x y = .ok k →
      k.code.length = lod ∧ (∀ c ∈ k.code.toList, c ∈ ['0', '1', '2', '3']) ∧
        (∀ i < lod, k.code.toList[i]? = ['0', '1', '2', '3'][(x.testBit (lod - 1 - i)).toNat +
          2 * (y.testBit (lod - 1 - i)).toNat]?) ∧
        decode k.code = .ok k) ∧
    ∀ s : String,
      ((∃ k, decode s = .ok k) ↔ s.length ≤ 63 ∧ ∀ c ∈ s.toList, c ∈ ['0', '1', '2', '3']) ∧
        ∀ k, decode s = .ok k → k.code = s ∧ ofGrid k.lod k.x k.y = .ok k := by
  refine ⟨fun lod x y => exists_ofGrid_iff, ?_, ?_⟩
  · intro lod x y k hk
    obtain ⟨rfl, rfl, rfl⟩ := eq_of_ofGrid hk
    exact ⟨k.length_code, fun c hc => mem_digits_of_mem_code hc, fun i hi => k.getElem?_code hi,
      decode_eq_ok_iff.mpr rfl⟩
  · intro s
    refine ⟨?_, fun k hk => ⟨decode_eq_ok_iff.mp hk, k.ofGrid_self⟩⟩
    simp only [decode_eq_ok_iff]
    exact exists_code_iff

end Key

end QuadCode
