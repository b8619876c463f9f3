import SchemaForms.Proofs.Listing
import SchemaForms.Proofs.RoundTrip
/-!
Where violations point.  The place of a violation in the instance leads to a
part of the instance (`Node.LeadsTo.has`), and its place in the schema leads to
a value of the JSON that the schema is written as, since every walked node is
written at its path (`Schema.Walked.at_path`).  The one keyword that a violation
may name without its being written is `optionalProperties`, at a properties form
that has neither of the two maps.
-/

namespace SchemaForms

/-- A value has a part at a path.  An item of an array is at its index in
decimal, and a member of an object at its key. -/
inductive Json.Has : Json → List String → Json → Prop where
  | self {value : Json} : Has value [] value
  | item {items : List Json} {index : Nat} {item part : Json}
      {path : List String} (hitem : items[index]? = some item)
      (hpart : Has item path part) :
      Has (.arr items) (Digits.text index :: path) part
  | member {members : KeyMap Json} {key : String} {member part : Json}
      {path : List String} (hmember : members.get? key = some member)
      (hpart : Has member path part) :
      Has (.obj members) (key :: path) part

/-- The value that the keys of a path lead to, from object to object. -/
def Json.at? : List String → Json → Option Json
  | [], value => some value
  | key :: path, .obj members => (members.get? key).bind (at? path)
  | _ :: _, _ => none

namespace Json

variable {value part : Json} {path rest : List String}

theorem Has.append {inner : Json} (hpart : value.Has path part)
    (hinner : part.Has rest inner) :
    value.Has (path ++ rest) inner := by
  induction hpart with
  | self => exact hinner
  | item hitem _ ih => exact .item hitem (ih hinner)
  | member hmember _ ih => exact .member hmember (ih hinner)

/-- One step further, into an object. -/
theorem Has.concat {members : KeyMap Json} {key : String} {member : Json}
    (hpart : value.Has path part) (hmembers : part = .obj members)
    (hmember : members.get? key = some member) :
    value.Has (path ++ [key]) member :=
  hpart.append (hmembers ▸ .member hmember .self)

theorem at?_cons {members : KeyMap Json} {key : String} :
    at? (key :: path) (.obj members) = (members.get? key).bind (at? path) := rfl

theorem at?_append (path rest : List String) (value : Json) :
    at? (path ++ rest) value = (at? path value).bind (at? rest) := by
  induction path generalizing value with
  | nil => rfl
  | cons key path ih =>
      cases value with
      | obj members =>
          rw [List.cons_append, at?_cons, at?_cons, Option.bind_assoc]
          congr 1
          funext member
          exact ih member
      | _ => rfl

end Json

namespace Node

variable {root : Schema} {s n c : Node} {place : Place} {value part : Json}

theorem Meets.has (hmeets : n.Meets root (.node c))
    (hpart : value.Has n.place.instancePath n.value) :
    value.Has c.place.instancePath c.value := by
  cases hmeets with
  | target hform htarget => exact hpart
  | branch hform hvalue htag hbranch => exact hpart
  | item hform hvalue hitem => exact hpart.append (hvalue ▸ .item hitem .self)
  | member hform hvalue hmember => exact hpart.concat hvalue hmember
  | required hform hvalue hkey hmember => exact hpart.concat hvalue hmember
  | optional hform hvalue hkey hmember => exact hpart.concat hvalue hmember

/-- A validation comes to parts of its instance only, and each of them is at its
path. -/
theorem LeadsTo.has (hleads : s.LeadsTo root n)
    (hpart : value.Has s.place.instancePath s.value) :
    value.Has n.place.instancePath n.value := by
  induction hleads with
  | refl => exact hpart
  | tail _ hmeets ih => exact hmeets.has ih

/-- A clash is at the value of the node, or at a member of it. -/
theorem Meets.exists_has (hmeets : n.Meets root (.clash place))
    (hpart : value.Has n.place.instancePath n.value) :
    ∃ part, value.Has place.instancePath part := by
  cases hmeets with
  | undeclared hform hvalue hmember hkey =>
      obtain ⟨member, hmember⟩ := Entries.contains_iff.1 hmember
      exact ⟨member, hpart.concat hvalue hmember⟩
  | badTag hform hvalue htag hmember => exact ⟨_, hpart.concat hvalue htag⟩
  | noBranch hform hvalue htag hbranch => exact ⟨_, hpart.concat hvalue htag⟩
  | _ => exact ⟨n.value, hpart⟩

end Node

namespace Schema

variable {root s t : Schema} {path tokens rest : SchemaPath} {keyword : Keyword}

/-- The path of a keyword leads to what is written for it. -/
theorem at?_keyword (s : Schema) (keyword : Keyword) (path : List String) :
    Json.at? (keyword.name :: path) s.toJson = (s.written? keyword).bind
      (Json.at? path) := by
  rw [toJson_eq_obj, Json.at?_cons, get?_members]

/-- A discriminator is written as an object with its tag and its mapping. -/
theorem at?_discriminator (definitions : Option (KeyMap Schema)) (tag : String)
    (mapping : KeyMap Schema) (key : String) (path : List String) :
    Json.at? (Keyword.discriminator.name :: key :: path)
        (Schema.mk definitions (.discriminator tag mapping)).toJson =
      ([(Keyword.mapping.name, .obj (encodeEntries mapping)),
        (Keyword.tag.name, .str tag)].lookup key).bind (Json.at? path) := by
  rw [at?_keyword, written?_of_kind? rfl, Form.written?, Option.bind_some,
    Json.object, Json.at?_cons, KeyMap.get?_ofList]
  rfl

/-- The path of a schema in a written map leads to it. -/
theorem at?_encodeEntries {schemas : KeyMap Schema} {key : String}
    (hkey : schemas.get? key = some t) :
    Json.at? [key] (.obj (encodeEntries schemas)) = some t.toJson := by
  rw [Json.at?_cons, encodeEntries_eq_map, Entries.get?_map, hkey]
  rfl

end Schema

theorem Form.Holds.at_path {s t : Schema} {tokens : SchemaPath}
    (hholds : s.form.Holds tokens t) :
    Json.at? tokens s.toJson = some t.toJson := by
  obtain ⟨definitions, form⟩ := s
  cases hholds with
  | elements => exact Schema.at?_keyword _ .elements []
  | values => exact Schema.at?_keyword _ .values []
  | required hkey =>
      rw [Schema.at?_keyword]
      exact Schema.at?_encodeEntries hkey
  | optional hkey =>
      rw [Schema.at?_keyword]
      exact Schema.at?_encodeEntries hkey
  | branch hname =>
      rw [Schema.at?_discriminator]
      exact Schema.at?_encodeEntries hname

namespace Schema

variable {root s t : Schema} {path : SchemaPath}

theorem Contains.at_path (hcontains : s.Contains path t) :
    Json.at? path s.toJson = some t.toJson := by
  induction hcontains with
  | self => rfl
  | under hholds _ ih =>
      rw [Json.at?_append, hholds.at_path, Option.bind_some, ih]

theorem Walked.at_path (hwalked : root.Walked path s) :
    Json.at? path root.toJson = some s.toJson := by
  cases hwalked with
  | form hcontains => exact hcontains.at_path
  | @definition name path definition s hname hcontains =>
      obtain ⟨definitions, hdefinitions, hget⟩ :=
        Option.bind_eq_some_iff.1 hname
      have hpath : Json.at? [Keyword.definitions.name, name] root.toJson =
          some definition.toJson := by
        rw [at?_keyword, written?, hdefinitions]
        exact at?_encodeEntries hget
      rw [← List.singleton_append (l := path), ← List.cons_append,
        Json.at?_append, hpath]
      exact hcontains.at_path

/-- A walked node is written with a value behind its keywords. -/
theorem Walked.exists_at (hwalked : root.Walked path s) {tokens : List String}
    {member : Json} (hmember : Json.at? tokens s.toJson = some member) :
    Json.at? (path ++ tokens) root.toJson = some member := by
  rw [Json.at?_append, hwalked.at_path, Option.bind_some, hmember]

end Schema

/-- The clash that names what is not written: some `optionalProperties` at a
properties form without the two maps, whose value is no object. -/
def Node.Unwritten (n : Node) (place : Place) : Prop :=
  place = n.place.underSchema Keyword.optionalProperties.name ∧
    (∃ additional, n.schema.form = .properties none none additional) ∧
    ∀ members, n.value ≠ .obj members

/-- A clash names a value that is written with the form of its node, unless
there is none. -/
theorem Node.Meets.exists_tokens {root : Schema} {n : Node} {place : Place}
    (hmeets : n.Meets root (.clash place)) :
    ∃ tokens, place.schemaPath = n.place.schemaPath ++ tokens ∧
      tokens.head? ≠ some Keyword.definitions.name ∧
      ((∃ member, Json.at? tokens n.schema.toJson = some member) ∨
        n.Unwritten place) := by
  obtain ⟨start, ⟨definitions, form⟩, value, tag⟩ := n
  have hkeyword : ∀ {keyword : Keyword} {tokens : List String},
      keyword ≠ .definitions →
      (keyword.name :: tokens).head? ≠ some Keyword.definitions.name := by
    intro keyword tokens hne hhead
    exact hne (Keyword.name_injective (Option.some.inj hhead))
  cases hmeets with
  | type hform htype =>
      cases hform
      exact ⟨_, rfl, hkeyword (by decide),
        .inl ⟨_, Schema.at?_keyword _ .type []⟩⟩
  | enum hform hvalue =>
      cases hform
      exact ⟨_, rfl, hkeyword (by decide),
        .inl ⟨_, Schema.at?_keyword _ .enum []⟩⟩
  | notArray hform hvalue =>
      cases hform
      exact ⟨_, rfl, hkeyword (by decide),
        .inl ⟨_, Schema.at?_keyword _ .elements []⟩⟩
  | notMap hform hvalue =>
      cases hform
      exact ⟨_, rfl, hkeyword (by decide),
        .inl ⟨_, Schema.at?_keyword _ .values []⟩⟩
  | @notObject required optional additional hform hvalue =>
      cases hform
      refine ⟨_, rfl, hkeyword (by split <;> decide), ?_⟩
      cases required with
      | some required => exact .inl ⟨_, Schema.at?_keyword _ .properties []⟩
      | none =>
          cases optional with
          | some optional =>
              exact .inl ⟨_, Schema.at?_keyword _ .optionalProperties []⟩
          | none => exact .inr ⟨rfl, ⟨additional, rfl⟩, hvalue⟩
  | missing hform hvalue hkey hmember =>
      cases hform
      obtain ⟨schema, hkey⟩ := Entries.contains_iff.1 hkey
      exact ⟨_, List.append_assoc _ _ _, hkeyword (by decide),
        .inl ⟨_, Form.Holds.at_path (.required hkey)⟩⟩
  | undeclared hform hvalue hmember hkey =>
      exact ⟨[], (List.append_nil _).symm, nofun, .inl ⟨_, rfl⟩⟩
  | notTagged hform hvalue =>
      cases hform
      exact ⟨_, rfl, hkeyword (by decide),
        .inl ⟨_, Schema.at?_keyword _ .discriminator []⟩⟩
  | noTag hform hvalue htag =>
      cases hform
      exact ⟨_, List.append_assoc _ _ _, hkeyword (by decide),
        .inl ⟨_, Schema.at?_discriminator _ _ _ Keyword.tag.name []⟩⟩
  | badTag hform hvalue htag hmember =>
      cases hform
      exact ⟨_, List.append_assoc _ _ _, hkeyword (by decide),
        .inl ⟨_, Schema.at?_discriminator _ _ _ Keyword.tag.name []⟩⟩
  | noBranch hform hvalue htag hbranch =>
      cases hform
      exact ⟨_, List.append_assoc _ _ _, hkeyword (by decide),
        .inl ⟨_, Schema.at?_discriminator _ _ _ Keyword.mapping.name []⟩⟩

/-- Behind a walked node, only the path of a definition starts with its
keyword. -/
theorem Schema.Walked.exists_name {root s : Schema}
    {path tokens rest : SchemaPath} (hwalked : root.Walked path s)
    (htokens : tokens.head? ≠ some Keyword.definitions.name)
    (hpath : path ++ tokens = Keyword.definitions.name :: rest) :
    ∃ name definition tail, rest = name :: tail ∧
      root.definition? name = some definition := by
  cases path with
  | nil => exact absurd (congrArg List.head? hpath) htokens
  | cons first others =>
      obtain ⟨rfl, rfl⟩ := List.cons.inj hpath
      obtain ⟨name, definition, tail, rfl, hname⟩ := hwalked.exists_definition
      exact ⟨name, definition, tail ++ tokens, rfl, hname⟩

/-- A properties form without the two maps is not written with either of their
keywords. -/
theorem Schema.at?_of_no_maps {s : Schema} {additional : Bool}
    (hform : s.form = .properties none none additional) :
    Json.at? [Keyword.optionalProperties.name] s.toJson = none := by
  rw [at?_keyword, written?_of_kind? rfl, hform]
  rfl

variable {schema : Schema} {value : Json} {limits : Limits}
  {found : List Violation}

/-- Every violation points to a part of the instance and to a value of the
written schema, but for the `optionalProperties` of a properties form that has
neither of the two maps, which a value that is no object is said to violate.  A
path that starts at the definitions goes on in one of them. -/
theorem validate_locations (hvalid : validate limits schema value = .ok found) :
    ∀ v ∈ found,
      (∃ part, value.Has v.instancePath part) ∧
      (Json.at? v.schemaPath schema.toJson = none ↔
        ∃ path s additional part,
        v.schemaPath = path ++ ["optionalProperties"] ∧
          schema.Walked path s ∧ s.form = .properties none none additional ∧
          value.Has v.instancePath part ∧ ∀ members, part ≠ .obj members) ∧
      ∀ rest, v.schemaPath = "definitions" :: rest →
        ∃ name definition tail, rest = name :: tail ∧
          schema.definition? name = some definition := by
  intro v hv
  obtain ⟨n, place, hleads, hmeets, rfl⟩ := clashes_of_validate hvalid hv
  have hhas := hleads.has Json.Has.self
  have hwalked := hleads.walked (.start schema)
  obtain ⟨tokens, hpath, htokens, hwritten⟩ := hmeets.exists_tokens
  refine ⟨hmeets.exists_has hhas, ⟨?_, ?_⟩, ?_⟩
  · intro hnone
    rcases hwritten with ⟨member, hmember⟩ | ⟨rfl, ⟨additional, hform⟩, hvalue⟩
    · have hsome := hwalked.exists_at hmember
      rw [← hpath] at hsome
      cases hsome.symm.trans hnone
    · exact ⟨n.place.schemaPath, n.schema, additional, n.value, rfl, hwalked,
        hform, hhas, hvalue⟩
  · rintro ⟨path, s, additional, part, hexception, hwalked', hform, -⟩
    rw [hexception, Json.at?_append, hwalked'.at_path, Option.bind_some]
    exact Schema.at?_of_no_maps hform
  · intro rest hrest
    exact hwalked.exists_name htokens (hpath.symm.trans hrest)

/-- A table by its kind, whose rows are objects without members. -/
def emptyRows : Schema :=
  ⟨some (KeyMap.ofList
    [("rows", .ofForm (.elements (.ofForm (.properties none none false))))]),
    .discriminator "kind" (KeyMap.ofList [("table", .ofForm (.properties
      (some (KeyMap.ofList [("rows", .ofForm (.ref "rows"))])) none false))])⟩

/-- A table with a row that is no object, and one that has a member. -/
def filledRows : Json :=
  .object [("kind", .str "table"),
    ("rows", .arr [.bool true, .object [], .object [("cell", .null)]])]

/-- The row that is no object violates a keyword that the schema does not
write. -/
theorem validate_locations_filledRows :
    validate .unlimited emptyRows filledRows =
        .ok [⟨["rows", "0"],
          ["definitions", "rows", "elements", "optionalProperties"]⟩,
          ⟨["rows", "2", "cell"], ["definitions", "rows", "elements"]⟩] ∧
      (∃ part, filledRows.Has ["rows", "2", "cell"] part) ∧
      Json.at? ["definitions", "rows", "elements"] emptyRows.toJson ≠ none ∧
      (∃ definition, emptyRows.definition? "rows" = some definition) ∧
      Json.at? ["definitions", "rows", "elements", "optionalProperties"]
        emptyRows.toJson = none ∧
      ∃ s additional part,
        emptyRows.Walked ["definitions", "rows", "elements"] s ∧
        s.form = .properties none none additional ∧
        filledRows.Has ["rows", "0"] part ∧
        ∀ members, part ≠ .obj members := by
  have hvalid : validate .unlimited emptyRows filledRows =
      .ok [⟨["rows", "0"],
        ["definitions", "rows", "elements", "optionalProperties"]⟩,
        ⟨["rows", "2", "cell"], ["definitions", "rows", "elements"]⟩] := rfl
  have hlocations := validate_locations hvalid
  obtain ⟨-, hrow, -⟩ := hlocations _ List.mem_cons_self
  obtain ⟨hcell, hwritten, hdefinition⟩ :=
    hlocations _ (List.mem_cons_of_mem _ List.mem_cons_self)
  have hnone : Json.at? ["definitions", "rows", "elements",
      "optionalProperties"]
      emptyRows.toJson = none := rfl
  refine ⟨hvalid, hcell, ?_, ?_, hnone, ?_⟩
  · intro hnone
    obtain ⟨path, -, -, -, hpath, -⟩ := hwritten.1 hnone
    have hlast := congrArg List.getLast? hpath
    simp at hlast
  · obtain ⟨name, definition, tail, htail, hname⟩ := hdefinition _ rfl
    cases htail
    exact ⟨definition, hname⟩
  · obtain ⟨path, s, additional, part, hpath, hexception⟩ := hrow.1 hnone
    obtain rfl : ["definitions", "rows", "elements"] = path :=
      (congrArg List.dropLast hpath).trans List.dropLast_concat
    exact ⟨s, additional, part, hexception⟩

end SchemaForms
