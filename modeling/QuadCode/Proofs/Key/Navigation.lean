import Mathlib.Logic.ExistsUnique
import Mathlib.Logic.Relation
import QuadCode.Proofs.Key.Code

/-!
# Going down and up

Going down to a quadrant puts one bit behind those of the column and one behind those of the row.
In words of 64 bits that is a shift by one place, and no bit is lost: a coordinate has no more than
63 bits, and with one more it fills the word.  On the code it writes one more digit, and going up
takes the last digit away again.  So the keys above a key are those whose codes its own code begins
with.

Main statements:

* `toNat_shiftIn`: a bit is put behind the bits of a word;
* `child_eq_ok_iff` and `parent_eq_some_iff`: going down and going up on paths;
* `path_prefix_iff_up`: the keys that going up leads to;
* `navigation`: what going down and up does to keys and to their codes.
-/

namespace QuadCode

open Relation

/-- A word of 64 bits, moved up by one place, with a bit in the place that is free. -/
def shiftIn (word bit : UInt64) : UInt64 :=
  word <<< 1 ||| bit

/-- **No bit is lost** when a bit is put behind 63 others. -/
theorem toNat_shiftIn {n bit : ℕ} (hn : n < 2 ^ 63) (hbit : bit < 2) :
    (shiftIn (UInt64.ofNat n) (UInt64.ofNat bit)).toNat = 2 * n + bit := by
  have hword : (UInt64.ofNat n).toNat = n := UInt64.toNat_ofNat_of_lt' (hn.trans (by decide))
  have hlow : (UInt64.ofNat bit).toNat = bit := UInt64.toNat_ofNat_of_lt' (hbit.trans (by decide))
  have hmove : n <<< 1 = 2 * n := by rw [Nat.shiftLeft_eq, pow_one, Nat.mul_comm]
  have hfits : 2 * n % 2 ^ 64 = 2 * n := Nat.mod_eq_of_lt (by omega)
  have hor : n <<< 1 + bit = n <<< 1 ||| bit := Nat.shiftLeft_add_eq_or_of_lt hbit n
  rw [shiftIn, UInt64.toNat_or, UInt64.toNat_shiftLeft, hword, hlow, ← hmove, hor]
  rw [← hmove] at hfits
  exact congrArg (· ||| bit) hfits

/-- The digit of a quadrant counts one for the right half and two for the top half. -/
theorem Quadrant.digit_eq_digitChar (q : Quadrant) :
    q.digit = Nat.digitChar (q.xBit + 2 * q.yBit) := by
  cases q <;> rfl

namespace Key

variable {k c p : Key} {q : Quadrant}

/-- Keys with one path are one key. -/
theorem path_injective : Function.Injective path := by
  intro a b h
  have hcode : a.code = b.code := by rw [code, code, h]
  have hread := decode_eq_ok_iff.mpr hcode
  rw [decode_eq_ok_iff.mpr rfl] at hread
  exact (Except.ok.inj hread).symm

/-- A key is that of a quadrant if and only if its path goes one step further, to the quadrant. -/
theorem child_eq_ok_iff : k.child q = .ok c ↔ c.path = k.path ++ [q] := by
  refine ⟨path_child, fun h => ?_⟩
  have hlod : c.lod = k.lod + 1 := by
    rw [← length_path, h, List.length_append, length_path, List.length_singleton]
  have hmax : k.lod + 1 ≤ maxLod := hlod ▸ c.lod_le
  obtain ⟨c', hc'⟩ := exists_child hmax q
  rw [hc', path_injective (h.trans (path_child hc').symm)]

/-- There is no key for a quadrant of a cell of the deepest level. -/
theorem child_of_deepest (h : k.lod = 63) (q : Quadrant) :
    k.child q = .error (.invalidKey 64 (2 * k.x + q.xBit) (2 * k.y + q.yBit)) := by
  have hdeep : ¬ k.lod + 1 ≤ maxLod := by
    rw [h]
    decide
  rw [child, ofGrid, dif_neg hdeep, h]

theorem child_eq_error_iff : (∃ e, k.child q = .error e) ↔ k.lod = 63 := by
  refine ⟨fun h => ?_, fun h => ⟨_, child_of_deepest h q⟩⟩
  by_contra hne
  have hlod := k.lod_le
  obtain ⟨c, hc⟩ := exists_child (lt_of_le_of_ne hlod hne) q
  obtain ⟨e, he⟩ := h
  rw [hc] at he
  cases he

/-- A key below the root has a parent, whose path is that of the key without its last step. -/
theorem exists_parent (h : k.isRoot = false) :
    ∃ p, k.parent = some p ∧ ∃ q, k.path = p.path ++ [q] := by
  obtain ⟨lod, x, y, hlod, hx, hy⟩ := k
  cases lod with
  | zero => cases h
  | succ lod => exact ⟨_, rfl, Quadrant.ofBits x y, rfl⟩

theorem parent_eq_none_iff : k.parent = none ↔ k.isRoot = true := by
  obtain ⟨lod, x, y, hlod, hx, hy⟩ := k
  cases lod with
  | zero => exact iff_of_true rfl rfl
  | succ lod => exact iff_of_false (Option.some_ne_none _) Bool.false_ne_true

/-- The parent of a key is the key that it is a child of. -/
theorem parent_eq_some_iff : c.parent = some k ↔ ∃ q, k.child q = .ok c := by
  simp only [child_eq_ok_iff]
  constructor
  · intro h
    have hbelow : c.isRoot = false := by
      rw [Bool.eq_false_iff, ne_eq, ← parent_eq_none_iff, h]
      exact Option.some_ne_none k
    obtain ⟨p, hp, hpath⟩ := exists_parent hbelow
    rwa [Option.some.inj (h.symm.trans hp)]
  · rintro ⟨q, hq⟩
    have hbelow : c.isRoot = false := by
      have hlength := c.length_path
      rw [hq, List.length_append, List.length_singleton] at hlength
      exact beq_false_of_ne (by omega)
    obtain ⟨p, hp, q', hq'⟩ := exists_parent hbelow
    have hsame := (List.append_singleton_inj.mp (hq'.symm.trans hq)).1
    rw [hp, path_injective hsame]

/-- There is only one quadrant that a key is the key of. -/
theorem quadrant_unique {q' : Quadrant} (h : k.child q = .ok c) (h' : k.child q' = .ok c) :
    q = q' :=
  (List.append_singleton_inj.mp ((path_child h).symm.trans (path_child h'))).2

/-- Going up takes one step. -/
def Up (k p : Key) : Prop :=
  k.parent = some p

/-- **The keys that going up leads to** are those whose paths the path of the key begins with. -/
theorem path_prefix_iff_up {a b : Key} : a.path <+: b.path ↔ ReflTransGen Up b a := by
  constructor
  · -- Unless the paths are the same, the path of the parent begins with that of `a` too.
    intro h
    induction hlod : b.lod generalizing b with
    | zero =>
        have hnil : b.path = [] := List.eq_nil_of_length_eq_zero (b.length_path.trans hlod)
        rw [hnil] at h
        rw [path_injective ((List.prefix_nil.mp h).trans hnil.symm)]
    | succ lod ih =>
        have hbelow : b.isRoot = false := beq_false_of_ne (by omega)
        obtain ⟨p, hp, q, hpath⟩ := exists_parent hbelow
        have hlength := congrArg List.length hpath
        rw [List.length_append, length_path, length_path, List.length_singleton] at hlength
        rw [hpath, List.prefix_concat_iff, ← hpath] at h
        rcases h with hsame | hbegins
        · rw [path_injective hsame]
        · exact (ih hbegins (by omega)).head hp
  · intro h
    induction h with
    | refl => exact List.prefix_rfl
    | tail _ hup ih =>
        obtain ⟨q, hq⟩ := parent_eq_some_iff.mp hup
        have hstep := path_child hq
        exact (List.prefix_append _ [q]).trans (hstep ▸ ih)

/-- What a key and its code become on the way down to a quadrant. -/
structure IsChild (k : Key) (q : Quadrant) (c : Key) : Prop where
  lod : c.lod = k.lod + 1
  fits : c.lod ≤ 63 ∧ c.x < 2 ^ c.lod ∧ c.y < 2 ^ c.lod
  column : c.x = (shiftIn (UInt64.ofNat k.x) (UInt64.ofNat q.xBit)).toNat ∧
    c.x = 2 * k.x + q.xBit
  row : c.y = (shiftIn (UInt64.ofNat k.y) (UInt64.ofNat q.yBit)).toNat ∧ c.y = 2 * k.y + q.yBit
  code : c.code = k.code.push (Nat.digitChar (q.xBit + 2 * q.yBit))
  parent : c.parent = some k

theorem code_child (h : k.child q = .ok c) :
    c.code = k.code.push (Nat.digitChar (q.xBit + 2 * q.yBit)) := by
  rw [← String.toList_inj, String.toList_push, toList_code, toList_code, path_child h,
    List.map_append, ← Quadrant.digit_eq_digitChar]
  rfl

/-- The coordinates of a key leave room for one more bit in a word of 64 bits. -/
theorem x_lt_word (k : Key) : k.x < 2 ^ 63 :=
  k.x_lt_two_pow.trans_le (Nat.pow_le_pow_right Nat.two_pos k.lod_le)

theorem y_lt_word (k : Key) : k.y < 2 ^ 63 :=
  k.y_lt_two_pow.trans_le (Nat.pow_le_pow_right Nat.two_pos k.lod_le)

theorem isChild_of_child (h : k.child q = .ok c) : IsChild k q c := by
  obtain ⟨hlod, hx, hy⟩ := eq_of_ofGrid h
  exact
    { lod := hlod
      fits := ⟨c.lod_le, c.x_lt_two_pow, c.y_lt_two_pow⟩
      column := ⟨hx.trans (toNat_shiftIn k.x_lt_word q.xBit_lt).symm, hx⟩
      row := ⟨hy.trans (toNat_shiftIn k.y_lt_word q.yBit_lt).symm, hy⟩
      code := code_child h
      parent := parent_eq_some_iff.mpr ⟨q, h⟩ }

/-- **Navigation is editing of codes.**  Only at the deepest level is there no key for a quadrant.
At every other level the quadrant has a key that fits its level, whose coordinates are those of the
key with one bit more, of which a word of 64 bits loses none; its code is the code of the key and
the digit of the quadrant, and its parent is the key.  Every key but the root is the key of one
quadrant of its parent, and of no other one.  And the keys that going up leads to are those whose
codes the code of the key begins with. -/
theorem navigation :
    (∀ (k : Key) (q : Quadrant), ((∃ e, k.child q = .error e) ↔ k.lod = 63) ∧
      (k.lod ≠ 63 → ∃ c, k.child q = .ok c ∧ IsChild k q c)) ∧
    (∀ k : Key, k.isRoot = false → ∃ p, k.parent = some p ∧ ∃! q, p.child q = .ok k) ∧
    (∀ k : Key, k.isRoot = true → k.parent = none) ∧
    ∀ a b : Key, a.code.toList <+: b.code.toList ↔ ReflTransGen Up b a := by
  refine ⟨fun k q => ⟨child_eq_error_iff, fun hlod => ?_⟩, fun k hk => ?_,
    fun k => parent_eq_none_iff.mpr, fun a b => ?_⟩
  · obtain ⟨c, hc⟩ := exists_child (lt_of_le_of_ne k.lod_le hlod) q
    exact ⟨c, hc, isChild_of_child hc⟩
  · obtain ⟨p, hp, -⟩ := exists_parent hk
    obtain ⟨q, hq⟩ := parent_eq_some_iff.mp hp
    exact ⟨p, hp, q, hq, fun q' hq' => quadrant_unique hq' hq⟩
  · rw [b.toList_code, code_prefix_iff]
    exact path_prefix_iff_up

end Key

end QuadCode
