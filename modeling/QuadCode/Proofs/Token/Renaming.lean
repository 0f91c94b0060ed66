import QuadCode.Proofs.Token.Coverage
import QuadCode.Proofs.Token.Vocabulary

/-!
# A shift only renames tokens

The shift of an encoder is applied to the codes of the leaves, one after the other, when they are
written, and to nothing else.  So an encoder comes to the same under any two shifts, but for the
names of the tokens, and it fails under both for the same reason if it fails at all.  An offset that
is accepted takes different digits to different characters, so it takes nothing away from what the
codes of a view tell: tokens are equal if and only if the codes are, and no token of a view begins
another one.

Main statements:

* `renamed_foldl_insertLeaf`: leaves written with a shift, and leaves renamed by it;
* `LocationEncoder.encode_renamed` and `WindowEncoder.encode_renamed`: encoders under a shift;
* `Shift.Moves.prefix_of_map_prefix`: what an accepted offset keeps;
* `shift_renames`: what a shift does to tokens.
-/

namespace QuadCode

/-- The codes of a view, each with the shift applied to it. -/
def CodeMap.renamed (s : Shift) (codes : CodeMap) : CodeMap :=
  codes.map fun _ code => s.apply code

/-- An encoding with the shift applied to all its codes. -/
def Encoding.renamed (s : Shift) (encoding : Encoding) : Encoding :=
  ⟨encoding.views.map (CodeMap.renamed s)⟩

theorem CodeMap.getElem?_renamed (s : Shift) (codes : CodeMap) (entity : ℕ) :
    (codes.renamed s)[entity]? = codes[entity]?.map s.apply :=
  Std.ExtTreeMap.getElem?_map

theorem CodeMap.renamed_empty (s : Shift) : (∅ : CodeMap).renamed s = ∅ :=
  Std.ExtTreeMap.map_eq_empty_iff.mpr rfl

/-- The codes of a renamed encoding. -/
theorem Encoding.code?_renamed (s : Shift) (encoding : Encoding) (i entity : ℕ) :
    (encoding.renamed s).code? i entity = (encoding.code? i entity).map s.apply := by
  unfold code? view? renamed
  rw [List.getElem?_map]
  cases encoding.views[i]? with
  | none => rfl
  | some view => exact view.getElem?_renamed s entity

namespace Tree

variable {s : Shift}

/-- A leaf writes its renamed code where it writes its code. -/
theorem renamed_insertLeaf (t : Tree Nat) (codes : CodeMap) (leaf : Node) :
    (codes.insertLeaf t .identity leaf).renamed s = (codes.renamed s).insertLeaf t s leaf := by
  refine Std.ExtTreeMap.ext_getElem? fun entity => ?_
  rw [CodeMap.getElem?_renamed, getElem?_insertLeaf, getElem?_insertLeaf, apply_identity]
  split
  · rfl
  · rw [CodeMap.getElem?_renamed]

/-- Leaves write their renamed codes where they write their codes. -/
theorem renamed_foldl_insertLeaf (t : Tree Nat) (leaves : List Node) (codes : CodeMap) :
    (leaves.foldl (CodeMap.insertLeaf t .identity) codes).renamed s =
      leaves.foldl (CodeMap.insertLeaf t s) (codes.renamed s) := by
  induction leaves generalizing codes with
  | nil => rfl
  | cons leaf rest ih => rw [List.foldl_cons, List.foldl_cons, ih, renamed_insertLeaf]

/-- The codes of a tree under a shift are its codes, renamed. -/
theorem codes_renamed (t : Tree Nat) (size : Float) :
    t.codes size s = CodeMap.renamed s <$> t.codes size .identity := by
  unfold codes
  split
  · rfl
  · split
    · rfl
    · rw [Except.map_ok, renamed_foldl_insertLeaf, CodeMap.renamed_empty]

theorem codesOf_renamed (settings : Settings) (places : List Location) :
    codesOf settings s places = CodeMap.renamed s <$> codesOf settings .identity places := by
  simp only [codesOf, codes_renamed (s := s), map_bind]

end Tree

/-- A run over a list whose results are changed gives the changed results. -/
theorem mapM_map_results {α β γ : Type} (f : α → Except Error β) (change : β → γ) (xs : List α) :
    (xs.mapM fun x => change <$> f x) = List.map change <$> xs.mapM f := by
  induction xs with
  | nil => rfl
  | cons x rest ih =>
      simp only [List.mapM_cons, ih, map_bind, bind_map_left, map_pure, List.map_cons]

/-- **An encoder of locations under a shift** gives the renamed encoding, or fails as it does
without the shift. -/
theorem LocationEncoder.encode_renamed (e : LocationEncoder) (s : Shift) (cloud : List Location) :
    ({ e with shift := s }.encode cloud).outcome =
      ({ e with shift := .identity }.encode cloud).outcome.map (Encoding.renamed s) := by
  rw [encode_outcome, encode_outcome]
  unfold encodeIn
  cases cloud.find? fun l => !l.isFinite with
  | some l => rfl
  | none =>
      dsimp only
      cases Geometry.plane.centroid cloud with
      | none =>
          rw [Except.map, Encoding.renamed, List.map_map]
          simp only [Function.comp_def, CodeMap.renamed_empty]
      | some center =>
          change _ = Encoding.renamed s <$> (_ >>= _)
          simp only [Tree.codesOf_renamed (s := s), mapM_map_results, map_bind, bind_map_left]
          rfl

/-- **An encoder of windows under a shift** gives the renamed encoding, or fails as it does without
the shift. -/
theorem WindowEncoder.encode_renamed (e : WindowEncoder) (s : Shift) (windows : List Window) :
    ({ e with shift := s }.encode windows).outcome =
      ({ e with shift := .identity }.encode windows).outcome.map (Encoding.renamed s) := by
  rw [encode_outcome, encode_outcome]
  cases windows.find? fun w => !w.isFinite with
  | some w => rfl
  | none =>
      change _ = Encoding.renamed s <$> (_ >>= _)
      simp only [Tree.codesOf_renamed (s := s), map_bind, bind_map_left]
      rfl

namespace Shift

variable {s : Shift} {distance : ℕ}

/-- A shift that keeps what strings of digits tell: it works on one character after the other, and
takes different strings of digits to different strings. -/
structure Faithful (s : Shift) : Prop where
  length_apply : ∀ w : String, (s.apply w).length = w.length
  apply_append : ∀ v w : String, s.apply (v ++ w) = s.apply v ++ s.apply w
  apply_injective : ∀ {v w : String}, (∀ c ∈ v.toList, c ∈ digits) →
    (∀ c ∈ w.toList, c ∈ digits) → s.apply v = s.apply w → v = w

/-- Different digits are taken to different characters. -/
theorem Moves.injective (h : s.Moves distance) {c c' : Char} (hc : c ∈ digits) (hc' : c' ∈ digits)
    (heq : s.applyChar c = s.applyChar c') : c = c' := by
  have hpoint := h c hc
  rw [heq, h c' hc'] at hpoint
  exact Char.toNat_inj.mp (Nat.add_right_cancel hpoint).symm

/-- Of two strings of digits, one begins the other if it does so after the shift. -/
theorem Moves.prefix_of_map_prefix (h : s.Moves distance) {v w : List Char}
    (hv : ∀ c ∈ v, c ∈ digits) (hw : ∀ c ∈ w, c ∈ digits)
    (hstart : v.map s.applyChar <+: w.map s.applyChar) : v <+: w := by
  induction v generalizing w with
  | nil => exact List.nil_prefix
  | cons c v ih =>
      cases w with
      | nil => simp at hstart
      | cons c' w =>
          rw [List.map_cons, List.map_cons, List.cons_prefix_cons] at hstart
          rw [List.cons_prefix_cons]
          exact ⟨h.injective (hv c List.mem_cons_self) (hw c' List.mem_cons_self) hstart.1,
            ih (fun d hd => hv d (List.mem_cons_of_mem _ hd))
              (fun d hd => hw d (List.mem_cons_of_mem _ hd)) hstart.2⟩

/-- An offset that is accepted is faithful. -/
theorem Moves.faithful (h : s.Moves distance) : s.Faithful where
  length_apply w := by
    rw [← String.length_toList, toList_apply, List.length_map, String.length_toList]
  apply_append v w := by
    rw [← String.toList_inj, String.toList_append, toList_apply, toList_apply, toList_apply,
      String.toList_append, List.map_append]
  apply_injective := by
    intro v w hv hw heq
    have hletters := congrArg String.toList heq
    rw [toList_apply, toList_apply] at hletters
    have hlength : v.toList.length = w.toList.length := by
      simpa using congrArg List.length hletters
    have hstart := h.prefix_of_map_prefix hv hw (hletters ▸ List.prefix_refl _)
    exact String.toList_inj.mp (hstart.eq_of_length hlength)

end Shift

/-- Codes of digits none of which begins another one. -/
structure CodeMap.PrefixFree (codes : CodeMap) : Prop where
  digits : ∀ {entity : ℕ} {code : String}, codes[entity]? = some code →
    ∀ c ∈ code.toList, c ∈ Shift.digits
  free : ∀ {a b : ℕ} {code code' : String}, codes[a]? = some code → codes[b]? = some code' →
    code.toList <+: code'.toList → code = code'

theorem CodeMap.prefixFree_empty : (∅ : CodeMap).PrefixFree := by
  constructor
  · intro entity code h
    simp at h
  · intro a b code code' h
    simp at h

/-- The codes of places are codes of leaves, of which none begins another. -/
theorem Tree.prefixFree_of_codesOf {settings : Settings} {places : List Location} {codes : CodeMap}
    (h : codesOf settings .identity places = .ok codes) : codes.PrefixFree := by
  obtain ⟨empty, tree, hempty, htree, hcodes⟩ := codesOf_eq_ok_iff.mp h
  obtain ⟨hsound, -⟩ := subdividedWith_parts hempty htree
  have hsource : ∀ {entity : ℕ} {code : String}, codes[entity]? = some code →
      ∃ leaf ∈ tree.leaves, code = leaf.key.code := by
    intro entity code hcode
    rw [eq_foldl_of_codes hcodes] at hcode
    rcases source_of_foldl_insertLeaf hcode with hnone | ⟨leaf, hleaf, -, rfl⟩
    · simp at hnone
    · exact ⟨leaf, (List.mem_filter.mp hleaf).1, apply_identity _⟩
  constructor
  · intro entity code hcode c hc
    obtain ⟨leaf, -, rfl⟩ := hsource hcode
    exact Key.mem_digits_of_mem_code hc
  · intro a b code code' hcode hcode' hstart
    obtain ⟨leaf, hleaf, rfl⟩ := hsource hcode
    obtain ⟨leaf', hleaf', rfl⟩ := hsource hcode'
    obtain ⟨i, hi⟩ := List.mem_iff_getElem?.mp hleaf
    obtain ⟨j, hj⟩ := List.mem_iff_getElem?.mp hleaf'
    rw [leaf'.key.toList_code, Key.code_prefix_iff] at hstart
    have hplace := hsound.leaf_free hi hj hstart
    rw [hplace, hj, Option.some.injEq] at hi
    rw [hi]

/-- The views of an encoding of locations are prefix free. -/
theorem LocationEncoder.prefixFree_views {e : LocationEncoder} {cloud : List Location}
    {encoding : Encoding}
    (h : ({ e with shift := .identity }.encode cloud).outcome = .ok encoding) :
    ∀ view ∈ encoding.views, view.PrefixFree := by
  intro view hview
  rw [encode_outcome] at h
  rcases codesOf_of_mem_views h hview with rfl | ⟨places, hcodes⟩
  · exact CodeMap.prefixFree_empty
  · exact Tree.prefixFree_of_codesOf hcodes

/-- The view of an encoding of windows is prefix free. -/
theorem WindowEncoder.prefixFree_views {e : WindowEncoder} {windows : List Window}
    {encoding : Encoding}
    (h : ({ e with shift := .identity }.encode windows).outcome = .ok encoding) :
    ∀ view ∈ encoding.views, view.PrefixFree := by
  intro view hview
  obtain ⟨places, hcodes⟩ := codesOf_of_mem_views h hview
  exact Tree.prefixFree_of_codesOf hcodes

/-- What the tokens of a renamed encoding tell, compared with the codes of the encoding: entities
share a token in a view if and only if they share their code, and no token of a view begins another
one. -/
structure Encoding.KeptBy (encoding renamed : Encoding) : Prop where
  shared_iff : ∀ i a b : ℕ,
    (∃ token, renamed.code? i a = some token ∧ renamed.code? i b = some token) ↔
      ∃ code, encoding.code? i a = some code ∧ encoding.code? i b = some code
  free : ∀ {i a b : ℕ} {token token' : String}, renamed.code? i a = some token →
    renamed.code? i b = some token' → token.toList <+: token'.toList → token = token'

theorem Encoding.keptBy_renamed {encoding : Encoding} {s : Shift} {distance : ℕ}
    (hs : s.Moves distance) (h : ∀ view ∈ encoding.views, view.PrefixFree) :
    encoding.KeptBy (encoding.renamed s) := by
  have hview : ∀ {i entity : ℕ} {code : String}, encoding.code? i entity = some code →
      ∃ view, encoding.view? i = some view ∧ view.PrefixFree ∧ view[entity]? = some code := by
    intro i entity code hcode
    obtain ⟨view, hview, hentity⟩ := Option.bind_eq_some_iff.mp hcode
    exact ⟨view, hview, h view (List.mem_of_getElem? hview), hentity⟩
  constructor
  · intro i a b
    constructor
    · rintro ⟨token, ha, hb⟩
      rw [code?_renamed] at ha hb
      obtain ⟨code, hcode, rfl⟩ := Option.map_eq_some_iff.mp ha
      obtain ⟨code', hcode', heq⟩ := Option.map_eq_some_iff.mp hb
      obtain ⟨view, -, hfree, hentity⟩ := hview hcode
      obtain ⟨view', -, hfree', hentity'⟩ := hview hcode'
      have hsame := hs.faithful.apply_injective (hfree'.digits hentity') (hfree.digits hentity) heq
      exact ⟨code, hcode, hsame ▸ hcode'⟩
    · rintro ⟨code, ha, hb⟩
      refine ⟨s.apply code, ?_, ?_⟩
      · rw [code?_renamed, ha]
        rfl
      · rw [code?_renamed, hb]
        rfl
  · intro i a b token token' ha hb hstart
    rw [code?_renamed] at ha hb
    obtain ⟨code, hcode, rfl⟩ := Option.map_eq_some_iff.mp ha
    obtain ⟨code', hcode', rfl⟩ := Option.map_eq_some_iff.mp hb
    obtain ⟨view, hplace, hfree, hentity⟩ := hview hcode
    obtain ⟨view', hplace', -, hentity'⟩ := hview hcode'
    obtain rfl := Option.some.inj (hplace.symm.trans hplace')
    rw [Shift.toList_apply, Shift.toList_apply] at hstart
    have hbegins := hs.prefix_of_map_prefix (hfree.digits hentity) (hfree.digits hentity') hstart
    rw [hfree.free hentity hentity' hbegins]

/-- **A shift only renames tokens.**  Under a shift an encoder gives its renamed encoding, or fails
as it does without the shift; and an offset that is accepted is faithful, so that tokens tell the
same as codes. -/
theorem shift_renames (s : Shift) :
    (∀ (e : LocationEncoder) (cloud : List Location),
      ({ e with shift := s }.encode cloud).outcome =
        ({ e with shift := .identity }.encode cloud).outcome.map (Encoding.renamed s)) ∧
    (∀ (e : WindowEncoder) (windows : List Window),
      ({ e with shift := s }.encode windows).outcome =
        ({ e with shift := .identity }.encode windows).outcome.map (Encoding.renamed s)) ∧
    ∀ distance : ℕ, Shift.ofOffset distance = .ok s → s.Faithful ∧
      (∀ (e : LocationEncoder) (cloud : List Location) (plain shifted : Encoding),
        ({ e with shift := .identity }.encode cloud).outcome = .ok plain →
          ({ e with shift := s }.encode cloud).outcome = .ok shifted → plain.KeptBy shifted) ∧
      ∀ (e : WindowEncoder) (windows : List Window) (plain shifted : Encoding),
        ({ e with shift := .identity }.encode windows).outcome = .ok plain →
          ({ e with shift := s }.encode windows).outcome = .ok shifted → plain.KeptBy shifted := by
  refine ⟨fun e => e.encode_renamed s, fun e => e.encode_renamed s, ?_⟩
  intro distance hdistance
  have hmoves := Shift.moves_of_ofOffset hdistance
  refine ⟨hmoves.faithful, ?_, ?_⟩
  · intro e cloud plain shifted hplain hshifted
    rw [e.encode_renamed, hplain] at hshifted
    obtain rfl := Except.ok.inj hshifted
    exact Encoding.keptBy_renamed hmoves (LocationEncoder.prefixFree_views hplain)
  · intro e windows plain shifted hplain hshifted
    rw [e.encode_renamed, hplain] at hshifted
    obtain rfl := Except.ok.inj hshifted
    exact Encoding.keptBy_renamed hmoves (WindowEncoder.prefixFree_views hplain)

/-- Two windows in letters instead of digits. -/
theorem letters_rename :
    let e : WindowEncoder := { settings := {}, scale := .horizon 1.0 }
    let windows : List Window := [⟨0.0, 1.0⟩, ⟨0.5, 1.0⟩]
    Shift.ofOffset 49 = .ok (.offset 49) ∧ (Shift.offset 49).Faithful ∧
      ∃ encoding, ({ e with shift := .identity }.encode windows).outcome = .ok encoding ∧
        ({ e with shift := .offset 49 }.encode windows).outcome =
          .ok (encoding.renamed (.offset 49)) ∧
        encoding.KeptBy (encoding.renamed (.offset 49)) := by
  intro e windows
  have hletters : Shift.ofOffset 49 = .ok (.offset 49) := rfl
  obtain ⟨encoding, hencoding⟩ := WindowEncoder.exists_encode_digits
  obtain ⟨-, hrenamed, hkept⟩ := shift_renames (.offset 49)
  obtain ⟨hfaithful, -, hkept⟩ := hkept 49 hletters
  have hshifted : ({ e with shift := .offset 49 }.encode windows).outcome =
      .ok (encoding.renamed (.offset 49)) := by
    rw [hrenamed e windows]
    exact congrArg (Except.map _) hencoding
  exact ⟨hletters, hfaithful, encoding, hencoding, hshifted,
    hkept e windows _ _ hencoding hshifted⟩

end QuadCode
