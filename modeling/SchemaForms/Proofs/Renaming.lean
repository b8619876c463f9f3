import SchemaForms.Proofs.Frames
import SchemaForms.Proofs.PairedParts
/-!
Other names for the definitions.  A schema in which each name is replaced by
another one, where it is defined and in each ref, keeps its shape off the refs
(`Form.congruent_renameRefs`), and a ref leads to the same definition
(`definition?_renamed`).  So both schemas validate an instance side by side
(`validate_renamed`).
-/

namespace SchemaForms

mutual

/-- The schema with another name in each ref, also in the schemas that it
defines. -/
def Schema.renameRefs (rename : String → String) : Schema → Schema
  | ⟨definitions, form⟩ =>
      ⟨renameRefs? rename definitions, form.renameRefs rename⟩

def Form.renameRefs (rename : String → String) : Form → Form
  | .empty => .empty
  | .ref name => .ref (rename name)
  | .type type => .type type
  | .enum values => .enum values
  | .elements schema => .elements (schema.renameRefs rename)
  | .properties required optional additional =>
      .properties (renameRefs? rename required)
        (renameRefs? rename optional) additional
  | .values schema => .values (schema.renameRefs rename)
  | .discriminator tag mapping =>
      .discriminator tag (renameEntries rename mapping)

def renameRefs? (rename : String → String) : Option (Entries Schema none) →
    Option (Entries Schema none)
  | none => none
  | some schemas => some (renameEntries rename schemas)

def renameEntries (rename : String → String) {lo : Option String} :
    Entries Schema lo → Entries Schema lo
  | .nil => .nil
  | .cons key above schema rest =>
      .cons key above (schema.renameRefs rename) (renameEntries rename rest)

end

def renameDefinitions (rename : String → String) (definitions : KeyMap Schema) :
    KeyMap Schema :=
  .ofList (definitions.toList.map fun (name, s) =>
    (rename name, s.renameRefs rename))

/-- The schema with another name for each definition, where it is defined and in
each ref. -/
def Schema.renamed (rename : String → String) (s : Schema) : Schema :=
  ⟨s.definitions.map (renameDefinitions rename), s.form.renameRefs rename⟩

/-- A path that starts at a definition starts at the new name of it. -/
def SchemaPath.renamed (rename : String → String) : SchemaPath → SchemaPath
  | keyword :: name :: rest =>
      if keyword = Keyword.definitions.name then keyword :: rename name :: rest
      else keyword :: name :: rest
  | path => path

def Violation.renamed (rename : String → String) (v : Violation) : Violation :=
  { v with schemaPath := SchemaPath.renamed rename v.schemaPath }

variable {rename : String → String}

theorem renameEntries_eq_map {lo : Option String}
    (schemas : Entries Schema lo) :
    renameEntries rename schemas = schemas.map (Schema.renameRefs rename) := by
  induction schemas with
  | nil => rfl
  | cons key above schema rest ih => rw [renameEntries, Entries.map, ih]

theorem renameRefs?_eq_map (schemas : Option (KeyMap Schema)) :
    renameRefs? rename schemas =
      schemas.map (Entries.map (Schema.renameRefs rename)) := by
  cases schemas with
  | none => rfl
  | some schemas => rw [renameRefs?, renameEntries_eq_map, Option.map_some]

@[simp] theorem Schema.form_renameRefs (s : Schema) :
    (s.renameRefs rename).form = s.form.renameRefs rename := by
  obtain ⟨definitions, form⟩ := s
  rfl

/-- The kind of a form stays the same. -/
theorem Form.renameRefs_ne_ref {form : Form} (hform : ∀ name, form ≠ .ref name)
    (name : String) :
    form.renameRefs rename ≠ .ref name := by
  cases form with
  | ref other => exact absurd rfl (hform other)
  | _ => nofun

/-- A map of entries with different keys binds each of them. -/
theorem KeyMap.get?_ofList_eq_some_iff {α : Type} {entries : List (String × α)}
    (hnodup : (entries.map Prod.fst).Nodup) {key : String} {value : α} :
    (KeyMap.ofList entries).get? key = some value ↔ (key, value) ∈ entries := by
  constructor
  · exact KeyMap.mem_of_get?_ofList
  · intro hentry
    have hbound : ((KeyMap.ofList entries).get? key).isSome = true := by
      rw [KeyMap.get?_ofList, List.lookup_isSome_iff]
      exact ⟨(key, value), List.mem_reverse.mpr hentry, beq_self_eq_true key⟩
    obtain ⟨other, hother⟩ := Option.isSome_iff_exists.mp hbound
    have hsame :=
      List.inj_on_of_nodup_map hnodup (KeyMap.mem_of_get?_ofList hother)
        hentry rfl
    rw [hother, (Prod.mk.inj hsame).2]

theorem KeyMap.toList_ofList_perm {α : Type} {entries : List (String × α)}
    (hnodup : (entries.map Prod.fst).Nodup) :
    (KeyMap.ofList entries).toList.Perm entries := by
  have hentries : entries.Nodup := .of_map _ hnodup
  have hlist : (KeyMap.ofList entries).toList.Nodup :=
    .of_map _ (KeyMap.ofList entries).nodup_keys
  rw [List.perm_ext_iff_of_nodup hlist hentries]
  rintro ⟨key, value⟩
  rw [← Entries.get?_eq_some_iff]
  exact KeyMap.get?_ofList_eq_some_iff hnodup

section

variable (hrename : Function.Injective rename)

include hrename

theorem nodup_renamedKeys (definitions : KeyMap Schema) :
    ((definitions.toList.map fun (name, s) =>
      (rename name, s.renameRefs rename)).map Prod.fst).Nodup := by
  rw [List.map_map]
  have hkeys : (Prod.fst ∘ fun ((name, s) : String × Schema) =>
      (rename name, s.renameRefs rename)) =
        rename ∘ Prod.fst := rfl
  rw [hkeys, ← List.map_map]
  exact definitions.nodup_keys.map hrename

theorem toList_renameDefinitions_perm (definitions : KeyMap Schema) :
    (renameDefinitions rename definitions).toList.Perm
      (definitions.toList.map fun (name, s) =>
        (rename name, s.renameRefs rename)) :=
  KeyMap.toList_ofList_perm (nodup_renamedKeys hrename definitions)

theorem get?_renameDefinitions (definitions : KeyMap Schema) (name : String) :
    (renameDefinitions rename definitions).get? (rename name) =
      (definitions.get? name).map (Schema.renameRefs rename) := by
  apply Option.ext
  intro s
  rw [renameDefinitions,
    KeyMap.get?_ofList_eq_some_iff (nodup_renamedKeys hrename definitions),
    List.mem_map, Option.map_eq_some_iff]
  constructor
  · rintro ⟨⟨name', s'⟩, hentry, heq⟩
    obtain ⟨hname, hs⟩ := Prod.mk.inj heq
    cases hrename hname
    exact ⟨s', Entries.get?_eq_some_iff.mpr hentry, hs⟩
  · rintro ⟨s', hs', rfl⟩
    exact ⟨(name, s'), Entries.get?_eq_some_iff.mp hs', rfl⟩

theorem definition?_renamed (s : Schema) (name : String) :
    (s.renamed rename).definition? (rename name) =
      (s.definition? name).map (Schema.renameRefs rename) := by
  unfold Schema.definition? Schema.renamed
  cases s.definitions with
  | none => rfl
  | some definitions => exact get?_renameDefinitions hrename definitions name

end

/-- A schema and the same one under other names, whatever each of them
defines. -/
def Schema.Renames (rename : String → String) (s s' : Schema) : Prop :=
  s'.form = s.form.renameRefs rename

theorem Schema.renames_renameRefs (s : Schema) :
    s.Renames rename (s.renameRefs rename) :=
  s.form_renameRefs

theorem related_renameEntries (schemas : KeyMap Schema) :
    Entries.Related (Schema.Renames rename) schemas
      (renameEntries rename schemas) := by
  rw [renameEntries_eq_map]
  refine ⟨?_, ?_⟩
  · rw [Entries.keys, Entries.keys, Entries.toList_map, List.map_map]
    rfl
  · intro key s s' hs hs'
    rw [Entries.get?_map, hs] at hs'
    cases hs'
    exact s.renames_renameRefs

theorem related_renameRefs? (schemas : Option (KeyMap Schema)) :
    Option.Rel (Entries.Related (Schema.Renames rename)) schemas
      (renameRefs? rename schemas) := by
  cases schemas with
  | none => exact .none
  | some schemas => exact .some (related_renameEntries schemas)

/-- A form has the same shape under other names, unless it is a ref. -/
theorem Form.congruent_renameRefs {form : Form}
    (hform : ∀ name, form ≠ .ref name) :
    form.Congruent (Schema.Renames rename) (form.renameRefs rename) := by
  cases form with
  | empty => exact .empty
  | ref name => exact absurd rfl (hform name)
  | type => exact .type
  | enum => exact .enum
  | elements s => exact .elements s.renames_renameRefs
  | properties required optional additional =>
      exact .properties (related_renameRefs? required)
        (related_renameRefs? optional)
  | values s => exact .values s.renames_renameRefs
  | discriminator tag mapping =>
      exact .discriminator (related_renameEntries mapping)

theorem SchemaPath.renamed_of_head? {path : SchemaPath}
    (hpath : path.head? ≠ some Keyword.definitions.name) :
    SchemaPath.renamed rename path = path := by
  match path with
  | [] => rfl
  | [_] => rfl
  | keyword :: name :: rest =>
      exact if_neg fun hkeyword => hpath (congrArg some hkeyword)

theorem Violation.renamed_of_head? {place : Place}
    (hpath : place.schemaPath.head? ≠ some Keyword.definitions.name) :
    place.violation.renamed rename = place.violation :=
  congrArg (Violation.mk place.instancePath) (SchemaPath.renamed_of_head? hpath)

/-- A place below a definition, by its path from there. -/
def Place.inDefinition (name : String) (place : Place) : Place :=
  { place with schemaPath := Keyword.definitions.name :: name ::
    place.schemaPath }

theorem Place.compatible_inDefinition (name : String) :
    Place.Compatible (inDefinition name) :=
  ⟨fun _ _ => rfl, fun _ _ => rfl⟩

/-- A node and one at the same place that demands the same of the value under
other names. -/
structure Node.Renames (rename : String → String) (n n' : Node) : Prop where
  place : n.place = n'.place
  schema : n.schema.Renames rename n'.schema
  value : n'.value = n.value
  tag : n'.tag = n.tag

/-- Two nodes that are visited together: outside the definitions they are at one
place, and below a definition the second one is where the new name leads to. -/
inductive Node.Renamed (rename : String → String) : Node → Node → Prop where
  | outside {n n' : Node}
      (hpath : n.place.schemaPath.head? ≠ some Keyword.definitions.name)
      (hrenames : n.Renames rename n') : Renamed rename n n'
  | inside {n n' : Node} {name : String} (hrenames : n.Renames rename n') :
      Renamed rename (n.relocate (Place.inDefinition name))
        (n'.relocate (Place.inDefinition (rename name)))

variable {root root' : Schema} {limits : Limits} {n n' : Node}

/-- Off the refs, parts come in pairs, at the same places. -/
theorem Node.Renames.parts (hrenames : n.Renames rename n')
    (hform : ∀ name, n.schema.form ≠ .ref name) (root root' : Schema) :
    List.Forall₂ (fun part part' => n.Meets root part ∧
      Part.Paired (Renames rename) Eq part part')
      (n.parts root) (n'.parts root') := by
  have hcongruent :
      n.schema.form.Congruent (Schema.Renames rename) n'.schema.form := by
    rw [hrenames.schema]
    exact Form.congruent_renameRefs hform
  have hmatches :
      List.Forall₂ (Part.Paired
        (Matches Eq (Schema.OneValue (Schema.Renames rename))) Eq)
      (n.parts root) (n'.parts root') :=
    hcongruent.parts_paired (Place.together_eq fun _ =>
      rfl) hrenames.place hrenames.value hrenames.tag
        fun name hname => absurd hname (hform name)
  refine (List.forall₂_and_left _ _).mpr ⟨fun part => mem_parts_iff.mp,
    hmatches.imp ?_⟩
  intro part part' hpart
  cases hpart with
  | clash hsame => exact .clash hsame
  | dangling => exact .dangling
  | node hnode =>
      exact .node ⟨hnode.place, hnode.like.1, hnode.like.2, hnode.tag⟩

namespace Node.Renamed

theorem schema (hrenamed : n.Renamed rename n') :
    n.schema.Renames rename n'.schema := by
  cases hrenamed with
  | outside _ hrenames => exact hrenames.schema
  | inside hrenames => exact hrenames.schema

theorem depth_eq (hrenamed : n.Renamed rename n') :
    n.place.depth = n'.place.depth := by
  cases hrenamed with
  | outside _ hrenames => rw [hrenames.place]
  | inside hrenames =>
      rw [relocate, relocate, hrenames.place]
      rfl

theorem tooDeep_eq (hrenamed : n.Renamed rename n') :
    n'.tooDeep limits = n.tooDeep limits := by
  unfold tooDeep
  rw [hrenamed.schema, ← hrenamed.depth_eq]
  cases n.schema.form <;> rfl

/-- A ref leads from the one to a definition and from the other one to the new
name of it. -/
theorem entry (hrenamed : n.Renamed rename n') (name : String)
    (target : Schema) :
    (n.entry name target).Renamed rename
      (n'.entry (rename name) (target.renameRefs rename)) := by
  have hframe {n n' : Node} (hrenames : n.Renames rename n') :
      Renames rename ⟨⟨n.place.instancePath, [], n.place.depth + 1⟩,
        target, n.value, none⟩
        ⟨⟨n'.place.instancePath, [], n'.place.depth + 1⟩,
          target.renameRefs rename, n'.value, none⟩ :=
    ⟨by rw [hrenames.place], target.renames_renameRefs, hrenames.value, rfl⟩
  cases hrenamed with
  | outside _ hrenames => exact .inside (hframe hrenames)
  | inside hrenames => exact .inside (hframe hrenames)

/-- A ref leads to the definition of the new name, or to nothing as before. -/
theorem parts_of_ref (hrename : Function.Injective rename)
    (hrenamed : n.Renamed rename n') {name : String}
    (hform : n.schema.form = .ref name) :
    List.Forall₂ (Part.Translated (Renamed rename) (.renamed rename) rename)
      (n.parts root) (n'.parts (root.renamed rename)) := by
  have hform' : n'.schema.form = .ref (rename name) := by
    rw [hrenamed.schema, hform]
    rfl
  have htarget' := definition?_renamed hrename root name
  cases htarget : root.definition? name with
  | none =>
      rw [htarget] at htarget'
      rw [parts_dangling hform htarget, parts_dangling hform' htarget']
      exact .cons .dangling .nil
  | some target =>
      rw [htarget] at htarget'
      rw [parts_ref hform htarget, parts_ref hform' htarget']
      exact .cons (.node (hrenamed.entry name target)) .nil

/-- Off the refs, parts come in pairs: outside the definitions they are at the
same places, and below one they are moved with it. -/
theorem parts_of_not_ref (hrenamed : n.Renamed rename n')
    (hform : ∀ name, n.schema.form ≠ .ref name) :
    List.Forall₂ (Part.Translated (Renamed rename) (.renamed rename) rename)
      (n.parts root) (n'.parts (root.renamed rename)) := by
  cases hrenamed with
  | outside hpath hrenames =>
      refine (hrenames.parts hform root (root.renamed rename)).imp ?_
      rintro part part' ⟨hmeets, hpart⟩
      have houtside {path : SchemaPath} (hpart : part.schemaPath? = some path) :
          path.head? ≠ some Keyword.definitions.name :=
            mt (hmeets.head?_eq_iff hform hpart).mp hpath
      cases hpart with
      | clash hsame =>
          exact .clash ((Violation.renamed_of_head? (houtside rfl)).trans hsame)
      | dangling =>
          cases hmeets with
          | dangling href => exact absurd href (hform _)
      | node hrenames => exact .node (.outside (houtside rfl) hrenames)
  | @inside n n' name hrenames =>
      have hform' : ∀ other, n'.schema.form ≠ .ref other := by
        rw [hrenames.schema]
        exact Form.renameRefs_ne_ref hform
      rw [parts_relocate (Place.compatible_inDefinition name) root n hform,
        parts_relocate (Place.compatible_inDefinition (rename name))
          (root.renamed rename) n' hform',
        List.forall₂_map_left_iff, List.forall₂_map_right_iff]
      refine (hrenames.parts hform root (root.renamed rename)).imp ?_
      rintro part part' ⟨hmeets, hpart⟩
      cases hpart with
      | clash hsame =>
          have hmoved := congrArg (fun v : Violation =>
            Violation.mk v.instancePath
              (Keyword.definitions.name :: rename name :: v.schemaPath)) hsame
          exact .clash hmoved
      | dangling =>
          cases hmeets with
          | dangling href => exact absurd href (hform _)
      | node hrenames => exact .node (.inside hrenames)

theorem translates (hrename : Function.Injective rename) (limits : Limits)
    (root : Schema) :
    Translates (Renamed rename) (.renamed rename) rename limits root
      (root.renamed rename) := by
  refine ⟨fun _ _ hrenamed => hrenamed.tooDeep_eq, ?_⟩
  intro n n' hrenamed
  by_cases href : ∃ name, n.schema.form = .ref name
  · obtain ⟨name, hform⟩ := href
    exact hrenamed.parts_of_ref hrename hform
  · exact hrenamed.parts_of_not_ref fun name hform => href ⟨name, hform⟩

end Node.Renamed

/-- Under other names, a schema validates every instance as before, and tells
the new names. -/
theorem validate_renamed (hrename : Function.Injective rename) (limits : Limits)
    (s : Schema) (value : Json) :
    validate limits (s.renamed rename) value =
      translateResult (.renamed rename) rename (validate limits s value) := by
  have hstart : (Node.start s value).Renamed rename
      (Node.start (s.renamed rename) value) :=
    .outside nofun ⟨rfl, rfl, rfl, rfl⟩
  exact (Node.Renamed.translates hrename limits s).validate_eq hstart

end SchemaForms
