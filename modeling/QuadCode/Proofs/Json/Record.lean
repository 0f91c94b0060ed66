import Mathlib.Data.List.Forall2
import QuadCode.Json.Record
import QuadCode.Proofs.Json.Text

/-!
# Reading a record that was written

A record is written as the object of its fields.  Its field names are different from each other, so
each of them finds its own value when the record is read, and nothing else is there.

Main statement: `Json.fields?_record`.
-/

namespace QuadCode.Json

/-- A run over a list gives what it gives at each item. -/
theorem mapM_of_forall₂ {α β : Type} {f : α → Option β} {xs : List α} {ys : List β}
    (h : List.Forall₂ (fun x y => f x = some y) xs ys) : xs.mapM f = some ys := by
  induction h with
  | nil => rfl
  | cons hx hrest ih => rw [List.mapM_cons, hx, ih]; rfl

/-- The names of the members of a record are read as they are written. -/
theorem namedMembers?_record (members : List (String × Json)) :
    namedMembers? (members.map fun (name, value) => (Letters.ofText name.toList, value)) =
      some members := by
  induction members with
  | nil => rfl
  | cons m rest ih =>
      rw [List.map_cons, namedMembers?, Letters.text?_ofText, ih]
      simp

/-- A name finds the value of its member, if no other member has that name. -/
theorem field?_of_mem {members : List (String × Json)} (h : (members.map Prod.fst).Nodup)
    {name : String} {v : Json} (hmem : (name, v) ∈ members) :
    field? members name = some (some v) := by
  have hone : members.filter (fun m => m.1 == name) = [(name, v)] := by
    induction members with
    | nil => cases hmem
    | cons m rest ih =>
        rw [List.map_cons, List.nodup_cons] at h
        rcases List.mem_cons.mp hmem with rfl | hmem
        · have hrest : rest.filter (fun m => m.1 == name) = [] := by
            rw [List.filter_eq_nil_iff]
            intro m hm heq
            exact h.1 (List.mem_map.mpr ⟨m, hm, eq_of_beq heq⟩)
          rw [List.filter_cons_of_pos (by simp), hrest]
        · have hother : ¬ (m.1 == name) = true := fun heq =>
            h.1 (List.mem_map.mpr ⟨_, hmem, (eq_of_beq heq).symm⟩)
          rw [List.filter_cons, if_neg hother, ih h.2 hmem]
  rw [field?, hone]

/-- **The fields of a record** are read as they are written. -/
theorem fields?_record (names : List String) (values : List Json)
    (hlength : names.length = values.length) (hnames : names.Nodup) (closed : Bool) :
    (record (names.zip values)).fields? names closed = some (values.map some) := by
  have hfst : (names.zip values).map Prod.fst = names :=
    List.map_fst_zip (Nat.le_of_eq hlength)
  have hfound : names.mapM (field? (names.zip values)) = some (values.map some) := by
    refine mapM_of_forall₂ (List.forall₂_map_right_iff.mpr ?_)
    exact List.forall₂_iff_zip.mpr ⟨hlength, fun hmem => field?_of_mem (hfst.symm ▸ hnames) hmem⟩
  have hnone : (names.zip values).any (fun m => !names.contains m.1) = false := by
    rw [List.any_eq_false]
    intro m hm
    simp [(List.of_mem_zip hm).1]
  rw [record, fields?, namedMembers?_record]
  simp only [hnone, Bool.and_false]
  exact hfound

end QuadCode.Json
