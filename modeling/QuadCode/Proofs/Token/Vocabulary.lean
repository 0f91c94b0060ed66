import QuadCode.Proofs.Token.Views

/-!
# Which tokens two encodings share

Two shifts are apart if no character stands for a digit under both.  A token that is not empty then
tells by any of its characters which of the two shifts it was written with.  The empty token tells
nothing: every shift writes the code of the undivided region as the empty string.  So encodings
written with shifts that are apart share the empty token if neither had enough entities for a first
split, and no token otherwise.

Main statements:

* `Shift.Moves.apart`: shifts whose distances differ by four or more are apart;
* `Shift.Apart.eq_empty`: shifts that are apart write no two codes alike but the empty one;
* `Issued.empty_mem_vocabulary_iff`: when an encoding has the empty token;
* `shared_token_iff`: the tokens that two encodings share.
-/

namespace QuadCode

namespace Shift

/-- No character stands for a digit under both shifts. -/
def Apart (s s' : Shift) : Prop :=
  ∀ c ∈ digits, ∀ c' ∈ digits, s.applyChar c ≠ s'.applyChar c'

/-- The shift moves each digit by the same number of code points. -/
def Moves (s : Shift) (distance : Nat) : Prop :=
  ∀ c ∈ digits, (s.applyChar c).toNat = c.toNat + distance

theorem moves_identity : identity.Moves 0 := by
  intro c hc
  rfl

theorem toNat_of_charAt? {codePoint : Nat} {c : Char} (h : charAt? codePoint = some c) :
    c.toNat = codePoint := by
  unfold charAt? at h
  split at h
  · rename_i hvalid
    rw [← Option.some.inj h]
    rw [Char.ofNat, dif_pos hvalid]
    rfl
  · cases h

/-- An offset that is accepted moves each digit by its distance. -/
theorem moves_of_ofOffset {distance : Nat} {s : Shift} (h : ofOffset distance = .ok s) :
    s.Moves distance := by
  unfold ofOffset at h
  split at h
  · rename_i hnone
    cases h
    intro c hc
    have hsome := List.find?_eq_none.mp hnone c hc
    rw [Option.isNone_iff_eq_none] at hsome
    obtain ⟨c', hc'⟩ := Option.ne_none_iff_exists'.mp hsome
    rw [applyChar, hc', Option.getD_some]
    exact toNat_of_charAt? hc'
  · cases h

/-- The code points of digits differ by three at most. -/
theorem toNat_of_mem_digits {c : Char} (h : c ∈ digits) : 48 ≤ c.toNat ∧ c.toNat ≤ 51 := by
  simp only [digits, List.mem_cons, List.not_mem_nil, or_false] at h
  rcases h with rfl | rfl | rfl | rfl <;> simp

/-- Shifts whose distances differ by four or more are apart. -/
theorem Moves.apart {s s' : Shift} {d d' : Nat} (h : s.Moves d) (h' : s'.Moves d')
    (hfar : d + 4 ≤ d' ∨ d' + 4 ≤ d) : s.Apart s' := by
  intro c hc c' hc' heq
  have hsum := h c hc
  have hsum' := h' c' hc'
  rw [heq, hsum'] at hsum
  have hc := toNat_of_mem_digits hc
  have hc' := toNat_of_mem_digits hc'
  omega

theorem toList_apply (s : Shift) (code : String) :
    (s.apply code).toList = code.toList.map s.applyChar :=
  String.toList_ofList

/-- A shift writes only the empty code as the empty string. -/
theorem apply_eq_empty_iff {s : Shift} {code : String} : s.apply code = "" ↔ code = "" := by
  rw [← String.toList_inj, toList_apply, ← String.toList_inj]
  exact List.map_eq_nil_iff

/-- Shifts that are apart write no two codes alike but the empty one. -/
theorem Apart.eq_empty {s s' : Shift} (h : s.Apart s') {key key' : Key}
    (heq : s.apply key.code = s'.apply key'.code) : s.apply key.code = "" := by
  rw [apply_eq_empty_iff, ← String.toList_eq_nil_iff]
  have hletters := congrArg String.toList heq
  rw [toList_apply, toList_apply] at hletters
  -- The first characters are images of digits, so they would differ.
  cases hcode : key.code.toList with
  | nil => rfl
  | cons c rest =>
      cases hcode' : key'.code.toList with
      | nil =>
          rw [hcode, hcode'] at hletters
          cases hletters
      | cons c' rest' =>
          rw [hcode, hcode'] at hletters
          have hdigit := Key.mem_digits_of_mem_code (hcode ▸ List.mem_cons_self)
          have hdigit' := Key.mem_digits_of_mem_code (hcode' ▸ List.mem_cons_self)
          exact absurd (List.cons.inj hletters).1 (h c hdigit c' hdigit')

end Shift

/-- The codes of a view are those that some entity has. -/
theorem CodeMap.mem_values_iff {codes : CodeMap} {token : String} :
    token ∈ codes.values ↔ ∃ entity : Nat, codes[entity]? = some token := by
  have hfold : codes.values = codes.foldr (fun _ token tokens => token :: tokens) [] := by
    cases codes with
    | mk inner => exact inner.inductionOn fun _ => rfl
  have hvalues : codes.values = codes.toList.map Prod.snd := by
    rw [hfold, Std.ExtTreeMap.foldr_eq_foldr_toList]
    induction codes.toList with
    | nil => rfl
    | cons entry rest ih => rw [List.foldr_cons, ih, List.map_cons]
  rw [hvalues, List.mem_map]
  constructor
  · intro h
    obtain ⟨⟨entity, token'⟩, hentry, rfl⟩ := h
    exact ⟨entity, Std.ExtTreeMap.mem_toList_iff_getElem?_eq_some.mp hentry⟩
  · intro h
    obtain ⟨entity, hentity⟩ := h
    exact ⟨(entity, token), Std.ExtTreeMap.mem_toList_iff_getElem?_eq_some.mpr hentity, rfl⟩

/-- The vocabulary of an encoding gathers the codes of all views. -/
theorem Encoding.mem_vocabulary_iff {e : Encoding} {token : String} :
    token ∈ e.vocabulary ↔ ∃ view ∈ e.views, ∃ entity : Nat, view[entity]? = some token := by
  have hgather : ∀ (views : List CodeMap) (found : Std.ExtTreeSet String compare),
      token ∈ views.foldl (fun found view => found.insertMany view.values) found ↔
        token ∈ found ∨ ∃ view ∈ views, token ∈ view.values := by
    intro views
    induction views with
    | nil => simp
    | cons view rest ih =>
        intro found
        rw [List.foldl_cons, ih, Std.ExtTreeSet.mem_insertMany_list, List.contains_iff_mem]
        simp [or_assoc]
  rw [vocabulary, hgather]
  simp [CodeMap.mem_values_iff]

/-- There are entities, and few enough of them to stay in the undivided region. -/
def Settings.Undivided (settings : Settings) (count : Nat) : Prop :=
  0 < count ∧ count ≤ settings.splitThreshold.toNat

section

variable {settings : Settings} {shift : Shift} {count : Nat} {e : Encoding} {token : String}

/-- A token is the shifted code of a key, and it is empty if and only if the region is undivided. -/
theorem Issued.exists_key (h : Issued settings shift count e) (htoken : token ∈ e.vocabulary) :
    ∃ key : Key, token = shift.apply key.code ∧ (token = "" ↔ settings.Undivided count) := by
  obtain ⟨view, hview, entity, hentity⟩ := Encoding.mem_vocabulary_iff.mp htoken
  have hcodes := h.views.2 view hview
  obtain ⟨key, rfl, hlod⟩ := hcodes.keys entity token hentity
  have hcount : 0 < count :=
    Nat.lt_of_le_of_lt (Nat.zero_le entity) ((hcodes.entities entity).mp (by rw [hentity]; rfl))
  refine ⟨key, rfl, ?_⟩
  rw [Shift.apply_eq_empty_iff, Settings.Undivided, ← hlod, ← key.length_code]
  simp [hcount]

/-- An encoding has the empty token if and only if the region is undivided. -/
theorem Issued.empty_mem_vocabulary_iff (h : Issued settings shift count e) :
    "" ∈ e.vocabulary ↔ settings.Undivided count := by
  constructor
  · intro hempty
    obtain ⟨key, -, hiff⟩ := h.exists_key hempty
    exact hiff.mp rfl
  · intro hundivided
    obtain ⟨hviews, hcodes⟩ := h.views
    obtain ⟨view, hview⟩ := List.exists_mem_of_ne_nil e.views hviews
    obtain ⟨token, htoken⟩ := Option.isSome_iff_exists.mp
      (((hcodes view hview).entities 0).mpr hundivided.1)
    have hmem := Encoding.mem_vocabulary_iff.mpr ⟨view, hview, 0, htoken⟩
    obtain ⟨key, -, hiff⟩ := h.exists_key hmem
    rwa [hiff.mpr hundivided] at hmem

end

/-- **Only the empty token is shared.**  Two encodings that are written with shifts apart share a
token if and only if it is the empty token and the region is undivided in both. -/
theorem shared_token_iff {settings settings' : Settings} {shift shift' : Shift} {count count' : Nat}
    {e e' : Encoding} (h : Issued settings shift count e) (h' : Issued settings' shift' count' e')
    (hapart : shift.Apart shift') (token : String) :
    token ∈ e.vocabulary ∧ token ∈ e'.vocabulary ↔
      token = "" ∧ settings.Undivided count ∧ settings'.Undivided count' := by
  constructor
  · intro hshared
    obtain ⟨key, htoken, hempty⟩ := h.exists_key hshared.1
    obtain ⟨key', htoken', hempty'⟩ := h'.exists_key hshared.2
    have hnil : token = "" := htoken.trans (hapart.eq_empty (htoken.symm.trans htoken'))
    exact ⟨hnil, hempty.mp hnil, hempty'.mp hnil⟩
  · intro hshared
    obtain ⟨rfl, hundivided, hundivided'⟩ := hshared
    exact ⟨h.empty_mem_vocabulary_iff.mpr hundivided, h'.empty_mem_vocabulary_iff.mpr hundivided'⟩

/-- The letters from `a` to `d` stand for the digits at a distance that is accepted. -/
theorem Shift.apart_letters : identity.Apart (.offset 49) := by
  have hletters : ofOffset 49 = .ok (.offset 49) := rfl
  exact moves_identity.apart (moves_of_ofOffset hletters) (by omega)

/-- Two windows on the scale of the unit in digits. -/
theorem WindowEncoder.exists_encode_digits :
    ∃ e, (({ settings := {}, scale := .horizon 1.0 } : WindowEncoder).encode
      [⟨0.0, 1.0⟩, ⟨0.5, 1.0⟩]).outcome = .ok e :=
  exists_encode rfl (by decide) rfl (by decide +kernel)

/-- A window can be encoded in letters. -/
theorem WindowEncoder.exists_encode_letters :
    ∃ e, (({ settings := {}, shift := .offset 49 } : WindowEncoder).encode
      [⟨0.0, 1.0⟩]).outcome = .ok e :=
  exists_encode rfl (by decide) rfl (by decide +kernel)

/-- The tokens that two windows in digits share with one window in letters. -/
theorem shared_token_windows :
    ∃ e e', Issued {} .identity 2 e ∧ Issued {} (.offset 49) 1 e' ∧
      Shift.identity.Apart (.offset 49) ∧ ∀ token,
        token ∈ e.vocabulary ∧ token ∈ e'.vocabulary ↔
          token = "" ∧ Settings.Undivided {} 2 ∧ Settings.Undivided {} 1 := by
  obtain ⟨e, he⟩ := WindowEncoder.exists_encode_digits
  obtain ⟨e', he'⟩ := WindowEncoder.exists_encode_letters
  have h := @Issued.windows {} { settings := {} } (.horizon 1.0) .identity _ e rfl he
  have h' := @Issued.windows {} { settings := {} } .observed (.offset 49) _ e' rfl he'
  exact ⟨e, e', h, h', Shift.apart_letters, shared_token_iff h h' Shift.apart_letters⟩

/-- The vocabularies of two encodings meet although no character stands for a digit in both: one
window alone has the empty token, in digits as well as in letters. -/
theorem vocabularies_meet :
    Shift.ofOffset 49 = .ok (.offset 49) ∧ Shift.identity.Apart (.offset 49) ∧
    ∃ e e', (({ settings := {} } : WindowEncoder).encode [⟨0.0, 1.0⟩]).outcome = .ok e ∧
      (({ settings := {}, shift := .offset 49 } : WindowEncoder).encode
        [⟨0.0, 1.0⟩]).outcome = .ok e' ∧ "" ∈ e.vocabulary ∧ "" ∈ e'.vocabulary := by
  obtain ⟨e, he⟩ : ∃ e, (({ settings := {} } : WindowEncoder).encode
      [⟨0.0, 1.0⟩]).outcome = .ok e :=
    WindowEncoder.exists_encode rfl (by decide) rfl (by decide +kernel)
  obtain ⟨e', he'⟩ := WindowEncoder.exists_encode_letters
  have h := @Issued.windows {} { settings := {} } .observed .identity _ e rfl he
  have h' := @Issued.windows {} { settings := {} } .observed (.offset 49) _ e' rfl he'
  have hundivided : Settings.Undivided {} 1 := ⟨Nat.one_pos, Nat.le_refl 1⟩
  exact ⟨rfl, Shift.apart_letters, e, e', he, he', h.empty_mem_vocabulary_iff.mpr hundivided,
    h'.empty_mem_vocabulary_iff.mpr hundivided⟩

end QuadCode
