import SchemaForms.Report
import SchemaForms.Proofs.PrettyText
import Mathlib.Data.List.Forall2
/-!
Reports as values.  From which objects a report is read is told member by member
(`ofJson?_obj_iff`): other members do not matter.  So a report is read from the
document that it is written as (`ofJson?_tree`), and also from one in which
other members stand in front (`ofJson?_of_members`).
-/

namespace SchemaForms

/-- A list is read item by item. -/
theorem mapM_eq_some_iff {α β : Type} {read : α → Option β} {items : List α}
    {results : List β} :
    items.mapM read = some results ↔
      List.Forall₂ (fun item result => read item = some result)
        items results := by
  induction items generalizing results with
  | nil => simp [eq_comm]
  | cons item rest ih =>
      rw [List.mapM_cons, Option.bind_eq_bind, Option.bind_eq_some_iff]
      constructor
      · rintro ⟨first, hfirst, hrest⟩
        obtain ⟨others, hothers, heq⟩ := Option.bind_eq_some_iff.mp hrest
        cases heq
        exact .cons hfirst (ih.mp hothers)
      · intro hresults
        cases hresults with
        | cons hfirst hothers => exact ⟨_, hfirst, by rw [ih.mpr hothers]; rfl⟩

namespace Violation

def pathJson (path : List String) : Json :=
  .arr (path.map .str)

theorem value_pathTree (path : List String) :
    (pathTree path).value = pathJson path := by
  rw [pathTree, Json.Tree.value, Json.Tree.itemValues_eq_map, List.map_map]
  rfl

/-- A path is read from no other value than from the array of its steps. -/
theorem pathOfJson?_eq_some_iff {value : Json} {path : List String} :
    pathOfJson? value = some path ↔ value = pathJson path := by
  cases value with
  | arr items =>
      rw [pathOfJson?, mapM_eq_some_iff, pathJson, Json.arr.injEq,
        ← List.forall₂_eq_eq_eq, List.forall₂_map_right_iff]
      constructor
      · intro hpath
        refine hpath.imp ?_
        intro item step hstep
        cases item with
        | str s => rw [Option.some.inj hstep]
        | _ => cases hstep
      · intro hpath
        refine hpath.imp ?_
        rintro _ step rfl
        rfl
  | _ => simp [pathOfJson?, pathJson]

/-- A violation is read from an object with its two paths. -/
theorem ofJson?_obj_iff {members : KeyMap Json} {v : Violation} :
    ofJson? (.obj members) = some v ↔
      members.get? "instancePath" = some (pathJson v.instancePath) ∧
        members.get? "schemaPath" = some (pathJson v.schemaPath) := by
  simp only [ofJson?, Option.bind_eq_bind, Option.bind_eq_some_iff,
    pathOfJson?_eq_some_iff]
  constructor
  · rintro ⟨_, hinstance, _, rfl, _, hschema, _, rfl, heq⟩
    cases heq
    exact ⟨hinstance, hschema⟩
  · rintro ⟨hinstance, hschema⟩
    exact ⟨_, hinstance, _, rfl, _, hschema, _, rfl, rfl⟩

theorem ofJson?_tree (v : Violation) : ofJson? v.tree.value = some v := by
  rw [tree, Json.Tree.value, ofJson?_obj_iff, KeyMap.get?_ofList,
    KeyMap.get?_ofList]
  simp [Json.Tree.memberValues, value_pathTree, List.lookup_cons]

end Violation

namespace Report

theorem flag?_eq_some_iff {value : Json} {b : Bool} : flag? value = some b ↔
    value = .bool b := by
  cases value <;> simp [flag?]

theorem errors?_eq_some_iff {value : Json} {errors : List Violation} :
    errors? value = some errors ↔ ∃ items, value = .arr items ∧
      List.Forall₂ (fun item v => Violation.ofJson? item = some v)
        items errors := by
  cases value with
  | arr items => simp [errors?, mapM_eq_some_iff]
  | _ => simp [errors?]

/-- A report is read from an object with its three members. -/
theorem ofJson?_obj_iff {members : KeyMap Json} {r : Report} :
    ofJson? (.obj members) = some r ↔
      members.get? "valid" = some (.bool r.valid) ∧
      members.get? "truncated" = some (.bool r.truncated) ∧
      ∃ items, members.get? "errors" = some (.arr items) ∧
        List.Forall₂ (fun item v => Violation.ofJson? item = some v)
          items r.errors := by
  simp only [ofJson?, Option.bind_eq_bind, Option.bind_eq_some_iff,
    flag?_eq_some_iff, errors?_eq_some_iff]
  constructor
  · rintro ⟨_, hvalid, _, rfl, _, htruncated, _, rfl, _, herrors, _,
      ⟨items, rfl, hitems⟩, heq⟩
    cases heq
    exact ⟨hvalid, htruncated, items, herrors, hitems⟩
  · rintro ⟨hvalid, htruncated, items, herrors, hitems⟩
    exact ⟨_, hvalid, _, rfl, _, htruncated, _, rfl, _, herrors, _,
      ⟨items, rfl, hitems⟩, rfl⟩

/-- Whatever stands in front of the members of a report, the report is read from
them. -/
theorem ofJson?_of_members (others : List (String × Json.Tree)) (r : Report) :
    ofJson? (Json.Tree.obj (others ++ r.members)).value = some r := by
  rw [Json.Tree.value, Json.Tree.memberValues_eq_map, ofJson?_obj_iff]
  have herrors : List.Forall₂ (fun item v => Violation.ofJson? item = some v)
      (r.errors.map fun v => v.tree.value) r.errors := by
    rw [List.forall₂_map_left_iff, List.forall₂_same]
    exact fun v _ => v.ofJson?_tree
  refine ⟨?_, ?_, r.errors.map fun v => v.tree.value, ?_, herrors⟩
  all_goals simp [KeyMap.get?_ofList, members, List.lookup_cons,
    Json.Tree.value, Json.Tree.itemValues_eq_map]

/-- A report is read from the document that it is written as. -/
theorem ofJson?_tree (r : Report) : ofJson? r.tree.value = some r :=
  ofJson?_of_members [] r

end Report

end SchemaForms
