import SchemaForms.Schema.Basic
/-!
Writing schemas as JSON.  An enum is written in the order of its strings.
`additionalProperties` is written when it is true, and also when nothing else
would show that the form is a properties form.
-/

namespace SchemaForms

def KeySet.toJson (s : KeySet) : Json :=
  .arr (s.keys.map .str)

mutual

def Schema.toJson : Schema → Json
  | ⟨definitions, form⟩ =>
      .object (optionalMember .definitions definitions ++ form.members)

def Form.members : Form → List (String × Json)
  | .empty => []
  | .ref name => [(Keyword.ref.name, .str name)]
  | .type type => [(Keyword.type.name, .str type.name)]
  | .enum values => [(Keyword.enum.name, KeySet.toJson values)]
  | .elements schema => [(Keyword.elements.name, schema.toJson)]
  | .properties required optional additional =>
      optionalMember .properties required ++
        optionalMember .optionalProperties optional ++
        if additional || (required.isNone && optional.isNone) then
          [(Keyword.additionalProperties.name, .bool additional)]
        else []
  | .values schema => [(Keyword.values.name, schema.toJson)]
  | .discriminator tag mapping =>
      [(Keyword.discriminator.name,
        .object [(Keyword.tag.name, .str tag),
          (Keyword.mapping.name, .obj (encodeEntries mapping))])]

/-- The member that writes a map of schemas, unless the map is missing. -/
def optionalMember (keyword : Keyword) : Option (Entries Schema none) →
    List (String × Json)
  | none => []
  | some schemas => [(keyword.name, .obj (encodeEntries schemas))]

def encodeEntries {lo : Option String} : Entries Schema lo → Entries Json lo
  | .nil => .nil
  | .cons name above schema rest =>
      .cons name above schema.toJson (encodeEntries rest)

end

/-- A map is written schema by schema. -/
theorem encodeEntries_eq_map {lo : Option String}
    (schemas : Entries Schema lo) :
    encodeEntries schemas = schemas.map Schema.toJson := by
  induction schemas with
  | nil => rfl
  | cons name above schema rest ih => rw [encodeEntries, Entries.map, ih]

example : (Schema.ofForm (.elements .empty)).toJson =
    .object [("elements", .object [])] := rfl

end SchemaForms
