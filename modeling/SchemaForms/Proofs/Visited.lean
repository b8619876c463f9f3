import SchemaForms.Proofs.Node
import SchemaForms.Proofs.Walked
import Mathlib.Logic.Relation
/-!
What a node demands, rule by rule.  `Node.Meets` says of each form which
violations, dangling refs and further nodes it leads to, without an order among
them, and `mem_parts_iff` that the parts of a node are exactly these.  A further
node is behind a ref, or a smaller schema stands there; and its value is a
smaller one too, unless only a ref or a discriminator lies between.
-/

namespace SchemaForms

/-- A part that a node meets, by the rule of its form. -/
inductive Node.Meets (root : Schema) (n : Node) : Part → Prop where
  /-- A ref goes on at the root definition of its name, with the same value. -/
  | target {name : String} {target : Schema} (hform : n.schema.form = .ref name)
      (htarget : root.definition? name = some target) :
      Meets root n (.node ⟨n.place.atDefinition name, target, n.value, none⟩)
  /-- A ref names no root definition. -/
  | dangling {name : String} (hform : n.schema.form = .ref name)
      (htarget : root.definition? name = none) : Meets root n (.dangling name)
  /-- The value has another type. -/
  | type {type : PrimitiveType} (hform : n.schema.form = .type type)
      (htype : type.accepts n.value = false) :
      Meets root n (.clash (n.place.underSchema Keyword.type.name))
  /-- The value is none of the strings. -/
  | enum {values : KeySet} (hform : n.schema.form = .enum values)
      (hvalue : ∀ s, n.value = .str s → values.contains s = false) :
      Meets root n (.clash (n.place.underSchema Keyword.enum.name))
  /-- The value is no array. -/
  | notArray {schema : Schema} (hform : n.schema.form = .elements schema)
      (hvalue : ∀ items, n.value ≠ .arr items) :
      Meets root n (.clash (n.place.underSchema Keyword.elements.name))
  /-- An item of the array. -/
  | item {schema : Schema} {items : List Json} {index : Nat} {item : Json}
      (hform : n.schema.form = .elements schema) (hvalue : n.value = .arr items)
      (hitem : items[index]? = some item) :
      Meets root n (.node
        ⟨(n.place.underSchema Keyword.elements.name).underInstance
          (Digits.text index), schema, item,
          none⟩)
  /-- The value of a values form is no object. -/
  | notMap {schema : Schema} (hform : n.schema.form = .values schema)
      (hvalue : ∀ members, n.value ≠ .obj members) :
      Meets root n (.clash (n.place.underSchema Keyword.values.name))
  /-- A member of the object, whatever its key. -/
  | member {schema : Schema} {members : KeyMap Json} {key : String}
      {member : Json} (hform : n.schema.form = .values schema)
      (hvalue : n.value = .obj members)
      (hmember : members.get? key = some member) :
      Meets root n (.node
        ⟨(n.place.underSchema Keyword.values.name).underInstance key,
          schema, member, none⟩)
  /-- The value of a properties form is no object: the first of the two keywords
  that the schema writes is to blame, and the second one if it writes none. -/
  | notObject {required optional : Option (KeyMap Schema)} {additional : Bool}
      (hform : n.schema.form = .properties required optional additional)
      (hvalue : ∀ members, n.value ≠ .obj members) :
      Meets root n (.clash (n.place.underSchema
        (if required.isSome then Keyword.properties
          else Keyword.optionalProperties).name))
  /-- A required member is missing. -/
  | missing {required : KeyMap Schema} {optional : Option (KeyMap Schema)}
      {additional : Bool} {members : KeyMap Json} {key : String}
      (hform : n.schema.form = .properties (some required) optional additional)
      (hvalue : n.value = .obj members) (hkey : required.contains key = true)
      (hmember : members.get? key = none) :
      Meets root n (.clash
        ((n.place.underSchema Keyword.properties.name).underSchema key))
  /-- A required member. -/
  | required {required : KeyMap Schema} {optional : Option (KeyMap Schema)}
      {additional : Bool} {members : KeyMap Json} {key : String}
      {schema : Schema} {member : Json}
      (hform : n.schema.form = .properties (some required) optional additional)
      (hvalue : n.value = .obj members) (hkey : required.get? key = some schema)
      (hmember : members.get? key = some member) :
      Meets root n (.node
        ⟨((n.place.underSchema Keyword.properties.name).underSchema
          key).underInstance key, schema,
          member, none⟩)
  /-- An optional member. -/
  | optional {required : Option (KeyMap Schema)} {optional : KeyMap Schema}
      {additional : Bool} {members : KeyMap Json} {key : String}
      {schema : Schema} {member : Json}
      (hform : n.schema.form = .properties required (some optional) additional)
      (hvalue : n.value = .obj members) (hkey : optional.get? key = some schema)
      (hmember : members.get? key = some member) :
      Meets root n (.node
        ⟨((n.place.underSchema Keyword.optionalProperties.name).underSchema
          key).underInstance key,
          schema, member, none⟩)
  /-- A member that the form does not know, and does not let pass. -/
  | undeclared {required optional : Option (KeyMap Schema)}
      {members : KeyMap Json} {key : String}
      (hform : n.schema.form = .properties required optional false)
      (hvalue : n.value = .obj members) (hmember : members.contains key = true)
      (hkey : isDeclared required optional n.tag key = false) :
      Meets root n (.clash (n.place.underInstance key))
  /-- The value of a discriminator is no object. -/
  | notTagged {tag : String} {mapping : KeyMap Schema}
      (hform : n.schema.form = .discriminator tag mapping)
      (hvalue : ∀ members, n.value ≠ .obj members) :
      Meets root n (.clash (n.place.underSchema Keyword.discriminator.name))
  /-- The tag is missing. -/
  | noTag {tag : String} {mapping : KeyMap Schema} {members : KeyMap Json}
      (hform : n.schema.form = .discriminator tag mapping)
      (hvalue : n.value = .obj members) (htag : members.get? tag = none) :
      Meets root n (.clash
        ((n.place.underSchema Keyword.discriminator.name).underSchema
          Keyword.tag.name))
  /-- The tag is no string. -/
  | badTag {tag : String} {mapping : KeyMap Schema} {members : KeyMap Json}
      {member : Json} (hform : n.schema.form = .discriminator tag mapping)
      (hvalue : n.value = .obj members) (htag : members.get? tag = some member)
      (hmember : ∀ s, member ≠ .str s) :
      Meets root n (.clash
        (((n.place.underSchema Keyword.discriminator.name).underSchema
          Keyword.tag.name).underInstance tag))
  /-- The tag names no branch. -/
  | noBranch {tag : String} {mapping : KeyMap Schema} {members : KeyMap Json}
      {branch : String} (hform : n.schema.form = .discriminator tag mapping)
      (hvalue : n.value = .obj members)
      (htag : members.get? tag = some (.str branch))
      (hbranch : mapping.get? branch = none) :
      Meets root n (.clash
        (((n.place.underSchema Keyword.discriminator.name).underSchema
          Keyword.mapping.name).underInstance tag))
  /-- The branch that the tag names goes on with the whole object, and knows the
  tag. -/
  | branch {tag : String} {mapping : KeyMap Schema} {members : KeyMap Json}
      {branch : String} {schema : Schema}
      (hform : n.schema.form = .discriminator tag mapping)
      (hvalue : n.value = .obj members)
      (htag : members.get? tag = some (.str branch))
      (hbranch : mapping.get? branch = some schema) :
      Meets root n (.node
        ⟨((n.place.underSchema Keyword.discriminator.name).underSchema
          Keyword.mapping.name).underSchema branch, schema, n.value, some tag⟩)

namespace Part

variable {place : Place} {part : Part}

theorem mem_ofItems_iff {schema : Schema} {items : List Json} :
    part ∈ ofItems place schema items ↔ ∃ index item,
      items[index]? = some item ∧
      part = .node ⟨place.underInstance (Digits.text index), schema,
        item, none⟩ := by
  rw [ofItems, List.mem_map]
  constructor
  · rintro ⟨⟨item, index⟩, hmem, rfl⟩
    exact ⟨index, item, List.mem_zipIdx_iff_getElem?.1 hmem, rfl⟩
  · rintro ⟨index, item, hitem, rfl⟩
    exact ⟨(item, index), List.mem_zipIdx_iff_getElem?.2 hitem, rfl⟩

theorem mem_ofMembers_iff {schema : Schema} {members : KeyMap Json} :
    part ∈ ofMembers place schema members ↔ ∃ key member,
      members.get? key = some member ∧
      part = .node ⟨place.underInstance key, schema, member, none⟩ := by
  rw [ofMembers, List.mem_map]
  constructor
  · rintro ⟨⟨key, member⟩, hmem, rfl⟩
    exact ⟨key, member, Entries.get?_eq_some_iff.2 hmem, rfl⟩
  · rintro ⟨key, member, hmember, rfl⟩
    exact ⟨(key, member), Entries.get?_eq_some_iff.1 hmember, rfl⟩

theorem mem_ofRequired_iff {required : KeyMap Schema} {members : KeyMap Json} :
    part ∈ ofRequired place required members ↔ ∃ key schema,
      required.get? key = some schema ∧
      (members.get? key = none ∧ part = .clash (place.underSchema key) ∨
        ∃ member, members.get? key = some member ∧
          part = .node ⟨(place.underSchema key).underInstance key, schema,
            member, none⟩) := by
  rw [ofRequired, List.mem_map]
  constructor
  · rintro ⟨⟨key, schema⟩, hmem, rfl⟩
    refine ⟨key, schema, Entries.get?_eq_some_iff.2 hmem, ?_⟩
    cases hmember : members.get? key with
    | none => exact .inl ⟨rfl, by simp [hmember]⟩
    | some member => exact .inr ⟨member, rfl, by simp [hmember]⟩
  · rintro ⟨key, schema, hkey, ⟨hmember, rfl⟩ | ⟨member, hmember, rfl⟩⟩
    · exact ⟨(key, schema), Entries.get?_eq_some_iff.1 hkey, by simp [hmember]⟩
    · exact ⟨(key, schema), Entries.get?_eq_some_iff.1 hkey, by simp [hmember]⟩

theorem mem_ofOptional_iff {optional : KeyMap Schema} {members : KeyMap Json} :
    part ∈ ofOptional place optional members ↔ ∃ key schema member,
      optional.get? key = some schema ∧ members.get? key = some member ∧
        part = .node ⟨(place.underSchema key).underInstance key, schema,
          member, none⟩ := by
  rw [ofOptional, List.mem_filterMap]
  constructor
  · rintro ⟨⟨key, schema⟩, hmem, himage⟩
    obtain ⟨member, hmember, rfl⟩ := Option.map_eq_some_iff.1 himage
    exact ⟨key, schema, member, Entries.get?_eq_some_iff.2 hmem, hmember, rfl⟩
  · rintro ⟨key, schema, member, hkey, hmember, rfl⟩
    exact ⟨(key, schema), Entries.get?_eq_some_iff.1 hkey, by simp [hmember]⟩

theorem mem_ofUndeclared_iff {required optional : Option (KeyMap Schema)}
    {tag : Option String} {members : KeyMap Json} :
    part ∈ ofUndeclared place required optional tag members ↔
      ∃ key, members.contains key = true ∧
        isDeclared required optional tag key = false ∧
        part = .clash (place.underInstance key) := by
  rw [ofUndeclared, List.mem_map]
  constructor
  · rintro ⟨key, hmem, rfl⟩
    rw [List.mem_filter, Entries.mem_keys_iff] at hmem
    exact ⟨key, hmem.1, by simpa using hmem.2, rfl⟩
  · rintro ⟨key, hmember, hkey, rfl⟩
    refine ⟨key, ?_, rfl⟩
    rw [List.mem_filter, Entries.mem_keys_iff]
    exact ⟨hmember, by simpa using hkey⟩

end Part

namespace Node

variable {root : Schema} {n : Node} {part : Part}

theorem meets_of_mem_ofProperties {required optional : Option (KeyMap Schema)}
    {additional : Bool} {members : KeyMap Json}
    (hform : n.schema.form = .properties required optional additional)
    (hvalue : n.value = .obj members)
    (hpart : part ∈ Part.ofProperties n.place required optional additional
      n.tag members) :
    n.Meets root part := by
  unfold Part.ofProperties at hpart
  rw [List.mem_append, List.mem_append] at hpart
  rcases hpart with (hrequired | hoptional) | hundeclared
  · cases required with
    | none => cases hrequired
    | some required =>
        obtain ⟨key, schema, hkey, ⟨hmember, rfl⟩ | ⟨member, hmember, rfl⟩⟩ :=
          Part.mem_ofRequired_iff.1 hrequired
        · exact .missing hform hvalue
            (Entries.contains_iff.2 ⟨schema, hkey⟩) hmember
        · exact .required hform hvalue hkey hmember
  · cases optional with
    | none => cases hoptional
    | some optional =>
        obtain ⟨key, schema, member, hkey, hmember, rfl⟩ :=
          Part.mem_ofOptional_iff.1 hoptional
        exact .optional hform hvalue hkey hmember
  · cases additional with
    | true => cases hundeclared
    | false =>
        obtain ⟨key, hmember, hkey, rfl⟩ :=
          Part.mem_ofUndeclared_iff.1 hundeclared
        exact .undeclared hform hvalue hmember hkey

theorem meets_ofBranch {tag : String} {mapping : KeyMap Schema}
    {members : KeyMap Json} (hform : n.schema.form = .discriminator tag mapping)
    (hvalue : n.value = .obj members) :
    n.Meets root
      (Part.ofBranch (n.place.underSchema Keyword.discriminator.name) tag
        mapping members) := by
  unfold Part.ofBranch
  split
  next htag => exact .noTag hform hvalue htag
  next branch htag =>
    split
    next schema hbranch => exact hvalue ▸ .branch hform hvalue htag hbranch
    next hbranch => exact .noBranch hform hvalue htag hbranch
  next member hmember htag => exact .badTag hform hvalue htag hmember

theorem meets_of_mem_parts (hpart : part ∈ n.parts root) :
    n.Meets root part := by
  obtain ⟨place, ⟨definitions, form⟩, value, tag⟩ := n
  cases form with
  | empty => cases hpart
  | ref name =>
      cases htarget : root.definition? name with
      | some target =>
          simp only [parts, htarget, List.mem_singleton] at hpart
          exact hpart ▸ .target rfl htarget
      | none =>
          simp only [parts, htarget, List.mem_singleton] at hpart
          exact hpart ▸ .dangling rfl htarget
  | type type =>
      cases htype : type.accepts value with
      | true => simp [parts, htype] at hpart
      | false =>
          simp only [parts, htype, Bool.false_eq_true, if_false,
            List.mem_singleton] at hpart
          exact hpart ▸ .type rfl htype
  | enum values =>
      cases value with
      | str s =>
          cases hs : values.contains s with
          | true => simp [parts, hs] at hpart
          | false =>
              simp only [parts, hs, Bool.false_eq_true, if_false,
                List.mem_singleton] at hpart
              exact hpart ▸ .enum rfl fun t ht => Json.str.inj ht ▸ hs
      | _ =>
          rw [List.mem_singleton.1 hpart]
          exact .enum rfl (by simp)
  | elements schema =>
      cases value with
      | arr items =>
          obtain ⟨index, item, hitem, rfl⟩ := Part.mem_ofItems_iff.1 hpart
          exact .item rfl rfl hitem
      | _ =>
          rw [List.mem_singleton.1 hpart]
          exact .notArray rfl (by simp)
  | properties required optional additional =>
      cases value with
      | obj members => exact meets_of_mem_ofProperties rfl rfl hpart
      | _ =>
          rw [List.mem_singleton.1 hpart]
          exact .notObject rfl (by simp)
  | values schema =>
      cases value with
      | obj members =>
          obtain ⟨key, member, hmember, rfl⟩ := Part.mem_ofMembers_iff.1 hpart
          exact .member rfl rfl hmember
      | _ =>
          rw [List.mem_singleton.1 hpart]
          exact .notMap rfl (by simp)
  | discriminator tag mapping =>
      cases value with
      | obj members =>
          rw [List.mem_singleton.1 hpart]
          exact meets_ofBranch rfl rfl
      | _ =>
          rw [List.mem_singleton.1 hpart]
          exact .notTagged rfl (by simp)

theorem mem_ofProperties_of_required {place : Place} {required : KeyMap Schema}
    {optional : Option (KeyMap Schema)} {additional : Bool}
    {tag : Option String} {members : KeyMap Json}
    (hpart : part ∈ Part.ofRequired (place.underSchema Keyword.properties.name)
      required members) :
    part ∈ Part.ofProperties place (some required) optional additional tag
      members :=
  List.mem_append_left _ (List.mem_append_left _ hpart)

theorem mem_ofProperties_of_optional {place : Place}
    {required : Option (KeyMap Schema)} {optional : KeyMap Schema}
    {additional : Bool} {tag : Option String} {members : KeyMap Json}
    (hpart : part ∈ Part.ofOptional
      (place.underSchema Keyword.optionalProperties.name) optional members) :
    part ∈ Part.ofProperties place required
      (some optional) additional tag members :=
  List.mem_append_left _ (List.mem_append_right _ hpart)

theorem mem_parts_of_meets (hmeets : n.Meets root part) :
    part ∈ n.parts root := by
  obtain ⟨place, ⟨definitions, form⟩, value, tag⟩ := n
  cases hmeets with
  | target hform htarget =>
      cases hform
      simp [parts, htarget]
  | dangling hform htarget =>
      cases hform
      simp [parts, htarget]
  | type hform htype =>
      cases hform
      simp [parts, htype]
  | enum hform hvalue =>
      cases hform
      cases value with
      | str s => simp [parts, hvalue s rfl]
      | _ => exact List.mem_singleton.2 rfl
  | notArray hform hvalue =>
      cases hform
      cases value with
      | arr items => exact absurd rfl (hvalue items)
      | _ => exact List.mem_singleton.2 rfl
  | item hform hvalue hitem =>
      cases hform
      cases hvalue
      exact Part.mem_ofItems_iff.2 ⟨_, _, hitem, rfl⟩
  | notMap hform hvalue =>
      cases hform
      cases value with
      | obj members => exact absurd rfl (hvalue members)
      | _ => exact List.mem_singleton.2 rfl
  | member hform hvalue hmember =>
      cases hform
      cases hvalue
      exact Part.mem_ofMembers_iff.2 ⟨_, _, hmember, rfl⟩
  | notObject hform hvalue =>
      cases hform
      cases value with
      | obj members => exact absurd rfl (hvalue members)
      | _ => exact List.mem_singleton.2 rfl
  | missing hform hvalue hkey hmember =>
      cases hform
      cases hvalue
      obtain ⟨schema, hschema⟩ := Entries.contains_iff.1 hkey
      exact mem_ofProperties_of_required
        (Part.mem_ofRequired_iff.2 ⟨_, schema, hschema, .inl ⟨hmember, rfl⟩⟩)
  | required hform hvalue hkey hmember =>
      cases hform
      cases hvalue
      exact mem_ofProperties_of_required
        (Part.mem_ofRequired_iff.2 ⟨_, _, hkey, .inr ⟨_, hmember, rfl⟩⟩)
  | optional hform hvalue hkey hmember =>
      cases hform
      cases hvalue
      exact mem_ofProperties_of_optional
        (Part.mem_ofOptional_iff.2 ⟨_, _, _, hkey, hmember, rfl⟩)
  | undeclared hform hvalue hmember hkey =>
      cases hform
      cases hvalue
      exact List.mem_append_right _
        (Part.mem_ofUndeclared_iff.2 ⟨_, hmember, hkey, rfl⟩)
  | notTagged hform hvalue =>
      cases hform
      cases value with
      | obj members => exact absurd rfl (hvalue members)
      | _ => exact List.mem_singleton.2 rfl
  | noTag hform hvalue htag =>
      cases hform
      cases hvalue
      simp [parts, Part.ofBranch, htag]
  | badTag hform hvalue htag hmember =>
      cases hform
      cases hvalue
      simp only [parts, Part.ofBranch, htag, List.mem_singleton]
  | noBranch hform hvalue htag hbranch =>
      cases hform
      cases hvalue
      simp [parts, Part.ofBranch, htag, hbranch]
  | branch hform hvalue htag hbranch =>
      cases hform
      cases hvalue
      simp [parts, Part.ofBranch, htag, hbranch]

/-- The parts of a node are what its form says that it meets. -/
theorem mem_parts_iff : part ∈ n.parts root ↔ n.Meets root part :=
  ⟨meets_of_mem_parts, mem_parts_of_meets⟩

/-- Where the tag names a branch, this branch is all that there is to visit. -/
theorem parts_branch {tag branch : String} {mapping : KeyMap Schema}
    {members : KeyMap Json} {schema : Schema}
    (hform : n.schema.form = .discriminator tag mapping)
    (hvalue : n.value = .obj members)
    (htag : members.get? tag = some (.str branch))
    (hbranch : mapping.get? branch = some schema) :
    n.parts root =
      [.node ⟨((n.place.underSchema Keyword.discriminator.name).underSchema
      Keyword.mapping.name).underSchema branch, schema, n.value,
      some tag⟩] := by
  obtain ⟨place, ⟨definitions, form⟩, value, tag⟩ := n
  cases hform
  cases hvalue
  simp [parts, Part.ofBranch, htag, hbranch]

/-- Off the refs, a node leads to schemas right below its own, at their
paths. -/
theorem Meets.exists_holds {c : Node} (hmeets : n.Meets root (.node c))
    (hform : ∀ name, n.schema.form ≠ .ref name) :
    ∃ tokens, n.schema.form.Holds tokens c.schema ∧
      c.place.schemaPath = n.place.schemaPath ++ tokens := by
  cases hmeets with
  | target href htarget => exact absurd href (hform _)
  | item hitems hvalue hitem => exact ⟨_, hitems ▸ .elements, rfl⟩
  | member hmembers hvalue hmember => exact ⟨_, hmembers ▸ .values, rfl⟩
  | required hmembers hvalue hkey hmember =>
      exact ⟨_, hmembers ▸ .required hkey, List.append_assoc _ _ _⟩
  | optional hmembers hvalue hkey hmember =>
      exact ⟨_, hmembers ▸ .optional hkey, List.append_assoc _ _ _⟩
  | @branch tag mapping members branch schema hbranches hvalue htag hbranch =>
      rw [hbranches]
      exact ⟨[Keyword.discriminator.name, Keyword.mapping.name, branch],
        .branch hbranch, by simp [Place.underSchema]⟩

/-- Off the refs, the schemas become smaller. -/
theorem Meets.sizeOf_lt {c : Node} (hmeets : n.Meets root (.node c))
    (hform : ∀ name, n.schema.form ≠ .ref name) :
    sizeOf c.schema < sizeOf n.schema := by
  obtain ⟨tokens, hholds, -⟩ := hmeets.exists_holds hform
  exact Nat.lt_trans hholds.sizeOf_lt n.schema.sizeOf_form_lt

/-- The value becomes smaller too, unless the next node is the only part: then
it stays at its place. -/
theorem Meets.height_lt_or {c : Node} (hmeets : n.Meets root (.node c)) :
    c.value.height < n.value.height ∨
      n.parts root = [.node c] ∧ c.value = n.value ∧
        c.place.instancePath = n.place.instancePath := by
  obtain ⟨place, ⟨definitions, form⟩, value, tag⟩ := n
  cases hmeets with
  | target hform htarget =>
      cases hform
      exact .inr ⟨by simp [parts, htarget], rfl, rfl⟩
  | item hform hvalue hitem =>
      cases hvalue
      exact .inl (Json.height_lt_arr (List.mem_of_getElem? hitem))
  | member hform hvalue hmember =>
      cases hvalue
      exact .inl (Json.height_lt_obj hmember)
  | required hform hvalue hkey hmember =>
      cases hvalue
      exact .inl (Json.height_lt_obj hmember)
  | optional hform hvalue hkey hmember =>
      cases hvalue
      exact .inl (Json.height_lt_obj hmember)
  | branch hform hvalue htag hbranch =>
      exact .inr ⟨parts_branch hform hvalue htag hbranch, rfl, rfl⟩

/-- Off the refs, as many refs are active as before. -/
theorem Meets.depth_eq {c : Node} (hmeets : n.Meets root (.node c))
    (hform : ∀ name, n.schema.form ≠ .ref name) :
    c.place.depth = n.place.depth := by
  cases hmeets with
  | target href htarget => exact absurd href (hform _)
  | _ => rfl

/-- Behind a ref, one more ref is active. -/
theorem Meets.depth_le {c : Node} (hmeets : n.Meets root (.node c)) :
    c.place.depth ≤ n.place.depth + 1 := by
  cases hmeets with
  | target href htarget => exact Nat.le_refl _
  | _ => exact Nat.le_succ _

/-- A node leads to another one over the nodes between them. -/
def LeadsTo (root : Schema) : Node → Node → Prop :=
  Relation.ReflTransGen fun n c => n.Meets root (.node c)

/-- A walked node leads to walked nodes, be it over a ref. -/
theorem Meets.walked {c : Node} (hmeets : n.Meets root (.node c))
    (hwalked : root.Walked n.place.schemaPath n.schema) :
    root.Walked c.place.schemaPath c.schema := by
  by_cases hform : ∃ name, n.schema.form = .ref name
  · obtain ⟨name, hname⟩ := hform
    cases hmeets with
    | target href htarget => exact .definition htarget .self
    | _ => simp_all
  · obtain ⟨tokens, hholds, hpath⟩ := hmeets.exists_holds fun name hname =>
      hform ⟨name, hname⟩
    rw [hpath]
    exact hwalked.concat hholds

/-- A validation comes to walked nodes only, and each of them is at its path. -/
theorem LeadsTo.walked {c : Node} (hleads : n.LeadsTo root c)
    (hwalked : root.Walked n.place.schemaPath n.schema) :
    root.Walked c.place.schemaPath c.schema := by
  induction hleads with
  | refl => exact hwalked
  | tail _ hmeets ih => exact hmeets.walked ih

def relocate (move : Place → Place) (n : Node) : Node :=
  { n with place := move n.place }

end Node

def Part.relocate (move : Place → Place) : Part → Part
  | clash place => clash (move place)
  | dangling name => dangling name
  | node n => node (n.relocate move)

/-- A change of places that goes along with every step down. -/
structure Place.Compatible (move : Place → Place) : Prop where
  underInstance : ∀ token place,
    move (place.underInstance token) = (move place).underInstance token
  underSchema : ∀ token place, move (place.underSchema token) =
    (move place).underSchema token

namespace Part

variable {move : Place → Place} (hmove : Place.Compatible move) (place : Place)

include hmove

theorem ofItems_relocate (schema : Schema) (items : List Json) :
    ofItems (move place) schema items = (ofItems place schema items).map
      (relocate move) := by
  simp [ofItems, relocate, Node.relocate, hmove.underInstance]

theorem ofMembers_relocate (schema : Schema) (members : KeyMap Json) :
    ofMembers (move place) schema members =
      (ofMembers place schema members).map (relocate move) := by
  simp [ofMembers, relocate, Node.relocate, hmove.underInstance]

theorem ofRequired_relocate (required : KeyMap Schema) (members : KeyMap Json) :
    ofRequired (move place) required members =
      (ofRequired place required members).map (relocate move) := by
  rw [ofRequired, ofRequired, List.map_map]
  apply List.map_congr_left
  intro entry _
  cases hmember : members.get? entry.1 <;>
    simp [hmember, relocate, Node.relocate, hmove.underSchema,
      hmove.underInstance]

theorem ofOptional_relocate (optional : KeyMap Schema) (members : KeyMap Json) :
    ofOptional (move place) optional members =
      (ofOptional place optional members).map (relocate move) := by
  rw [ofOptional, ofOptional, List.map_filterMap]
  congr 1
  funext entry
  cases hmember : members.get? entry.1 <;>
    simp [hmember, relocate, Node.relocate, hmove.underSchema,
      hmove.underInstance]

theorem ofUndeclared_relocate (required optional : Option (KeyMap Schema))
    (tag : Option String) (members : KeyMap Json) :
    ofUndeclared (move place) required optional tag members =
      (ofUndeclared place required optional tag members).map
        (relocate move) := by
  simp [ofUndeclared, relocate, hmove.underInstance]

theorem ofProperties_relocate (required optional : Option (KeyMap Schema))
    (additional : Bool) (tag : Option String) (members : KeyMap Json) :
    ofProperties (move place) required optional additional tag members =
      (ofProperties place required optional additional tag members).map
        (relocate move) := by
  unfold ofProperties
  rw [List.map_append, List.map_append]
  congr 1
  · congr 1
    · cases required with
      | none => rfl
      | some required =>
          simp only [← hmove.underSchema]
          exact ofRequired_relocate hmove _ required members
    · cases optional with
      | none => rfl
      | some optional =>
          simp only [← hmove.underSchema]
          exact ofOptional_relocate hmove _ optional members
  · cases additional with
    | true => rfl
    | false =>
        exact ofUndeclared_relocate hmove place required optional tag members

theorem ofBranch_relocate (tag : String) (mapping : KeyMap Schema)
    (members : KeyMap Json) :
    ofBranch (move place) tag mapping members =
      (ofBranch place tag mapping members).relocate move := by
  unfold ofBranch
  rcases members.get? tag with _ | value
  · simp [relocate, hmove.underSchema]
  · cases value with
    | str branch =>
        cases hbranch : mapping.get? branch <;>
          simp [hbranch, relocate, Node.relocate, hmove.underSchema,
            hmove.underInstance]
    | _ => simp [relocate, hmove.underSchema, hmove.underInstance]

end Part

namespace Node

/-- The definitions that a node itself carries do not matter, and of the root
only the definitions do. -/
theorem parts_congr {root root' : Schema} {n n' : Node}
    (hdefinitions : root'.definitions = root.definitions)
    (hform : n'.schema.form = n.schema.form) (hplace : n'.place = n.place)
    (hvalue : n'.value = n.value) (htag : n'.tag = n.tag) :
    n'.parts root' = n.parts root := by
  simp only [parts, Schema.definition?, hdefinitions, hform,
    hplace, hvalue, htag]

/-- What a node meets does not depend on where it is. -/
theorem parts_relocate {move : Place → Place} (hmove : Place.Compatible move)
    (root : Schema) (n : Node) (hform : ∀ name, n.schema.form ≠ .ref name) :
    (n.relocate move).parts root = (n.parts root).map (Part.relocate move) := by
  obtain ⟨place, ⟨definitions, form⟩, value, tag⟩ := n
  cases form with
  | empty => rfl
  | ref name => exact absurd rfl (hform name)
  | type type =>
      cases htype : type.accepts value <;>
        simp [relocate, parts, htype, Part.relocate, hmove.underSchema]
  | enum values =>
      cases value with
      | str s =>
          cases hs : values.contains s <;>
            simp [relocate, parts, hs, Part.relocate, hmove.underSchema]
      | _ => simp [relocate, parts, Part.relocate, hmove.underSchema]
  | elements schema =>
      cases value with
      | arr items =>
          simp only [relocate, parts]
          rw [← hmove.underSchema, Part.ofItems_relocate hmove]
      | _ => simp [relocate, parts, Part.relocate, hmove.underSchema]
  | properties required optional additional =>
      cases value with
      | obj members =>
          exact Part.ofProperties_relocate hmove place required optional
            additional tag members
      | _ => simp [relocate, parts, Part.relocate, hmove.underSchema]
  | values schema =>
      cases value with
      | obj members =>
          simp only [relocate, parts]
          rw [← hmove.underSchema, Part.ofMembers_relocate hmove]
      | _ => simp [relocate, parts, Part.relocate, hmove.underSchema]
  | discriminator tag mapping =>
      cases value with
      | obj members =>
          simp only [relocate, parts, List.map_singleton]
          rw [← hmove.underSchema, Part.ofBranch_relocate hmove]
      | _ => simp [relocate, parts, Part.relocate, hmove.underSchema]

end Node

end SchemaForms
