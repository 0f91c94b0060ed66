import QuadCode.Proofs.Json.Record
import QuadCode.Token.Json

/-!
# An encoding and its text

An encoding is written as the list of its views, and a view as the list of its entries: the number
of an entity between quotes, a colon, and the code with its escapes.  A map has no order, so the
entries may be written in any.  Whatever the order and whatever the codes, the encoding that is read
is the one that was written.

Main statements:

* `Encoding.compactText_entriesToJson`: the text of an encoding, character by character;
* `CodeMap.foldl_insert_eq`: entries in any order make the same map;
* `Encoding.ofJsonText?_written`: an encoding is read from its text.
-/

namespace QuadCode

/-! ## The text -/

/-- A text between quotes, with its escapes. -/
def stringText (s : String) : String :=
  "\"" ++ String.ofList (s.toList.flatMap inString) ++ "\""

/-- The entry of an entity: its number between quotes, a colon, and its code. -/
def entryText (entry : ℕ × String) : String :=
  "\"" ++ toString entry.1 ++ "\":" ++ stringText entry.2

/-- The entries of a view between braces, with commas between them. -/
def viewText (entries : List (ℕ × String)) : String :=
  "\x7b" ++ ",".intercalate (entries.map entryText) ++ "\x7d"

/-- The text of an encoding whose views have the given entries, in the given order. -/
def Encoding.written (views : List (List (ℕ × String))) : String :=
  "\x7b\"views\":[" ++ ",".intercalate (views.map viewText) ++ "]\x7d"

theorem Json.separated_eq_intercalate (separator : List Char) (texts : List (List Char)) :
    separated separator texts = separator.intercalate texts := by
  induction texts with
  | nil => rfl
  | cons t rest ih =>
      cases rest with
      | nil => simp [separated, List.intercalate]
      | cons t' rest =>
          rw [List.intercalate_cons_cons, separated, ih]
          exact List.cons_ne_nil _ _

theorem Json.compactItems_eq_map (items : List Json) :
    compactItems items = items.map compact := by
  induction items with
  | nil => rfl
  | cons item rest ih => rw [compactItems, ih, List.map_cons]

theorem Json.compactMembers_eq_map (members : List (Letters × Json)) :
    compactMembers members = members.map fun m => quoted m.1 ++ ':' :: m.2.compact := by
  induction members with
  | nil => rfl
  | cons m rest ih => rw [compactMembers, ih, List.map_cons]

theorem Json.compact_ofText (s : String) : (ofText s).compact = (stringText s).toList := by
  rw [ofText, compact, quoted, Letters.ofText, List.flatMap_map]
  simp [Letter.text_ofChar, stringText]

theorem quoted_entityName (entity : ℕ) :
    Json.quoted (entityName entity) = ("\"" ++ toString entity ++ "\"").toList := by
  have hplain : ∀ s : List Char, (s.map Letter.plain).flatMap Letter.text = s := by
    intro s
    rw [List.flatMap_map]
    simp [Letter.text]
  have hdigits : (Numeral.ofNat entity).text = (toString entity).toList := by
    rw [← Digits.text_ofNat]
    simp [Numeral.ofNat, Numeral.text]
  rw [Json.quoted, entityName, hplain, hdigits, String.toList_append, String.toList_append]
  rfl

theorem CodeMap.compact_entriesToJson (entries : List (ℕ × String)) :
    (entriesToJson entries).compact = (viewText entries).toList := by
  have hentry (entry : ℕ × String) : Json.quoted (entityName entry.1) ++
      ':' :: (Json.ofText entry.2).compact = (entryText entry).toList := by
    rw [quoted_entityName, Json.compact_ofText, entryText]
    simp only [String.toList_append, List.append_assoc]
    rfl
  rw [entriesToJson, Json.compact, Json.compactMembers_eq_map, Json.separated_eq_intercalate,
    List.map_map, viewText, String.toList_append, String.toList_append, String.toList_intercalate,
    List.map_map]
  simp only [Function.comp_def, hentry]
  rfl

/-- **The text of an encoding.** -/
theorem Encoding.compactText_entriesToJson (views : List (List (ℕ × String))) :
    (entriesToJson views).compactText = written views := by
  have hviews : (Json.array (views.map CodeMap.entriesToJson)).compact =
      '[' :: [','].intercalate (views.map fun v => (viewText v).toList) ++ [']'] := by
    rw [Json.compact, Json.compactItems_eq_map, Json.separated_eq_intercalate, List.map_map]
    simp only [Function.comp_def, CodeMap.compact_entriesToJson]
  have hname : Json.quoted (Letters.ofText "views".toList) = "\"views\"".toList := by decide
  have hcompact : (entriesToJson views).compact = "\x7b\"views\":".toList ++
      (Json.array (views.map CodeMap.entriesToJson)).compact ++ ['\x7d'] := by
    change '\x7b' :: (Json.quoted (Letters.ofText "views".toList) ++ ':' :: _) ++ _ = _
    rw [hname]
    rfl
  rw [Json.compactText, hcompact, hviews, ← String.toList_inj, String.toList_ofList, written,
    String.toList_append, String.toList_append, String.toList_intercalate, List.map_map]
  simp [Function.comp_def]

/-! ## Reading -/

/-- The letters of a number stand for themselves. -/
theorem wellFormed_entityName (entity : ℕ) : ∀ l ∈ entityName entity, l.WellFormed := by
  have hdigit (d : Digit) : (Letter.plain d.toChar).WellFormed := by
    revert d
    simp only [Letter.WellFormed]
    decide
  intro l hl
  obtain ⟨c, hc, rfl⟩ := List.mem_map.mp hl
  simp only [Numeral.ofNat, Numeral.text, Bool.false_eq_true, if_false, List.nil_append,
    List.append_nil, Digits.text, List.mem_map] at hc
  obtain ⟨d, -, rfl⟩ := hc
  exact hdigit d

/-- The number of an entity is read from its name. -/
theorem entityOfName?_entityName {entity : ℕ} (h : entity < UInt64.size) :
    entityOfName? (entityName entity) = some entity := by
  have hletters : (entityName entity).mapM Letter.plain? = some (Numeral.ofNat entity).text := by
    refine Json.mapM_of_forall₂ ?_
    rw [entityName, List.forall₂_map_left_iff]
    exact List.forall₂_same.mpr fun c _ => rfl
  have hscan : Numeral.scan (Numeral.ofNat entity).text = some (Numeral.ofNat entity, []) := by
    have hnumeral := Numeral.scan_text (Numeral.wellFormed_ofNat entity) Numeral.EndsBefore.nil
    rwa [List.append_nil] at hnumeral
  rw [entityOfName?, hletters]
  simp only [Option.bind_eq_bind, Option.bind_some, hscan]
  exact Numeral.count?_ofNat h

namespace CodeMap

variable {entries : List (ℕ × String)} {view : CodeMap}

theorem wellFormed_entriesToJson (entries : List (ℕ × String)) :
    (entriesToJson entries).WellFormed := by
  rw [entriesToJson, Json.wellFormed_object_iff, List.forall_mem_map]
  exact fun entry _ => ⟨wellFormed_entityName entry.1, Json.wellFormed_ofText entry.2⟩

/-- The entries of a view are read as they are written. -/
theorem entriesOfMembers?_map (h : ∀ entry ∈ entries, entry.1 < UInt64.size) :
    entriesOfMembers? (entries.map fun (entity, code) => (entityName entity, .ofText code)) =
      some entries := by
  induction entries with
  | nil => rfl
  | cons entry rest ih =>
      rw [List.forall_mem_cons] at h
      rw [List.map_cons, entriesOfMembers?, entityOfName?_entityName h.1, ih h.2]
      simp [Json.ofText, Json.text?, Letters.text?_ofText]

/-- An entity has the code that was put in for it, if none was put in for it again, and else the one
that it had before. -/
theorem getElem?_foldl_insert_iff (h : (entries.map Prod.fst).Nodup) (codes : CodeMap)
    {entity : ℕ} {code : String} :
    (entries.foldl (fun codes (entity, code) => codes.insert entity code) codes)[entity]? =
        some code ↔
      (entity, code) ∈ entries ∨ entity ∉ entries.map Prod.fst ∧ codes[entity]? = some code := by
  induction entries generalizing codes with
  | nil => simp
  | cons entry rest ih =>
      obtain ⟨first, firstCode⟩ := entry
      rw [List.map_cons, List.nodup_cons] at h
      rw [List.foldl_cons, ih h.2, Std.ExtTreeMap.getElem?_insert]
      by_cases hfirst : first = entity
      · subst hfirst
        simp [h.1, or_comm, eq_comm]
      · simp [hfirst, Ne.symm hfirst]

/-- **Entries in any order make the same map.** -/
theorem foldl_insert_eq (h : entries.Perm view.toList) :
    entries.foldl (fun codes (entity, code) => codes.insert entity code) ∅ = view := by
  have hkeys : (entries.map Prod.fst).Nodup := by
    rw [(h.map Prod.fst).nodup_iff, List.Nodup, List.pairwise_map]
    exact Std.ExtTreeMap.distinct_keys_toList.imp fun hne heq =>
      hne (Nat.compare_eq_eq.mpr heq)
  refine Std.ExtTreeMap.ext_getElem? fun entity => Option.ext fun code => ?_
  rw [getElem?_foldl_insert_iff hkeys, h.mem_iff, Std.ExtTreeMap.mem_toList_iff_getElem?_eq_some]
  simp

/-- A view is read from its value, whatever the order of its entries. -/
theorem ofJson?_entriesToJson (hentities : ∀ entity ∈ view, entity < UInt64.size)
    (h : entries.Perm view.toList) : ofJson? (entriesToJson entries) = some view := by
  have hsmall : ∀ entry ∈ entries, entry.1 < UInt64.size := by
    intro entry hentry
    have hcode := Std.ExtTreeMap.mem_toList_iff_getElem?_eq_some.mp (h.mem_iff.mp hentry)
    exact hentities _ (Std.ExtTreeMap.mem_iff_isSome_getElem?.mpr (by rw [hcode]; rfl))
  rw [entriesToJson, ofJson?, entriesOfMembers?_map hsmall, Option.map_some, foldl_insert_eq h]

end CodeMap

namespace Encoding

/-- Entries for each view of an encoding, in some order. -/
def Lists (views : List (List (ℕ × String))) (e : Encoding) : Prop :=
  List.Forall₂ (fun entries (view : CodeMap) => entries.Perm view.toList) views e.views

variable {e : Encoding} {views : List (List (ℕ × String))}

theorem wellFormed_entriesToJson (views : List (List (ℕ × String))) :
    (entriesToJson views).WellFormed := by
  refine Json.wellFormed_record ?_
  rw [fieldNames, List.zip_cons_cons, List.zip_nil_left, List.forall_mem_singleton,
    Json.wellFormed_array_iff, List.forall_mem_map]
  exact fun entries _ => CodeMap.wellFormed_entriesToJson entries

/-- The views of an encoding are read from its value. -/
theorem ofJson?_entriesToJson (hentities : ∀ view ∈ e.views, ∀ entity ∈ view, entity < UInt64.size)
    (h : Lists views e) : ofJson? (entriesToJson views) = some e := by
  have hfields := Json.fields?_record fieldNames [.array (views.map CodeMap.entriesToJson)]
    rfl (by decide) false
  have hviews : (views.map CodeMap.entriesToJson).mapM CodeMap.ofJson? = some e.views := by
    obtain ⟨hlength, hpairs⟩ := List.forall₂_iff_zip.mp h
    refine Json.mapM_of_forall₂ (List.forall₂_map_left_iff.mpr (List.forall₂_iff_zip.mpr ?_))
    exact ⟨hlength, fun hpair => CodeMap.ofJson?_entriesToJson
      (hentities _ (List.of_mem_zip hpair).2) (hpairs hpair)⟩
  rw [ofJson?, Json.allFields?, entriesToJson, hfields]
  simp [Json.items?, hviews]

/-- **An encoding is read from its text**, whatever the order of the entries. -/
theorem ofJsonText?_written (hentities : ∀ view ∈ e.views, ∀ entity ∈ view, entity < UInt64.size)
    (h : Lists views e) : ofJsonText? (written views) = some e := by
  rw [← compactText_entriesToJson, ofJsonText?, Json.read?_compactText (wellFormed_entriesToJson _),
    Option.bind_some, ofJson?_entriesToJson hentities h]

/-- **An encoding is kept by its text.**  Whatever the codes are, and in whatever order the entries
of each view are written, the text is that of the format and the encoding is read from it.  One such
order is that of the numbers of the entities. -/
theorem kept_by_text (e : Encoding)
    (hentities : ∀ view ∈ e.views, ∀ entity ∈ view, entity < UInt64.size) :
    (∀ views, Lists views e →
      (entriesToJson views).compactText = written views ∧ ofJsonText? (written views) = some e) ∧
    e.toJsonText = written (e.views.map fun view => view.toList) ∧
    ofJsonText? e.toJsonText = some e := by
  have hall : ∀ views, Lists views e →
      (entriesToJson views).compactText = written views ∧ ofJsonText? (written views) = some e :=
    fun views h => ⟨compactText_entriesToJson views, ofJsonText?_written hentities h⟩
  have hsorted : Lists (e.views.map fun view => view.toList) e :=
    List.forall₂_map_left_iff.mpr (List.forall₂_same.mpr fun view _ => List.Perm.refl _)
  obtain ⟨htext, hread⟩ := hall _ hsorted
  rw [toJsonText, toJson, htext]
  exact ⟨hall, rfl, hread⟩

/-- An encoding with an empty view, an empty code and a code of characters that are escaped, whose
greatest entity is written first. -/
theorem kept_by_text_escaped :
    let code := "\"\\\n\x01/é😀"
    let e : Encoding := ⟨[(∅ : CodeMap).insert 0 "" |>.insert (UInt64.size - 1) code, ∅]⟩
    let views := [[(UInt64.size - 1, code), (0, "")], []]
    (∀ view ∈ e.views, ∀ entity ∈ view, entity < UInt64.size) ∧ Lists views e ∧
      ofJsonText? (written views) = some e ∧ ofJsonText? e.toJsonText = some e := by
  intro code e views
  have hentities : ∀ view ∈ e.views, ∀ entity ∈ view, entity < UInt64.size := by
    simp only [e, List.forall_mem_cons, Std.ExtTreeMap.mem_insert, Nat.compare_eq_eq]
    refine ⟨?_, by simp, by simp⟩
    rintro entity (rfl | rfl | hnone)
    · decide
    · decide
    · simp at hnone
  have hlists : Lists views e := by
    refine .cons ?_ (.cons ?_ .nil)
    · decide +kernel
    · decide +kernel
  obtain ⟨hall, -, hread⟩ := kept_by_text e hentities
  exact ⟨hentities, hlists, (hall views hlists).2, hread⟩

end Encoding

end QuadCode
