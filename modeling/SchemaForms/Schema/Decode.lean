import SchemaForms.Schema.Basic
import SchemaForms.Schema.Path
/-!
Reading schemas from JSON.  A value that is no schema is refused for its first
defect: definitions come first, then a conflict of two forms, then the one form;
the members of a map come in key order.  Unknown members are ignored.
-/

namespace SchemaForms

/-- What is wrong with a value that should be read as a schema. -/
inductive SchemaDefect where
  /-- The schema is not an object. -/
  | schemaNotObject (found : Json.Kind)
  /-- The value of a keyword is not an object. -/
  | notObject (keyword : Keyword) (found : Json.Kind)
  /-- The value of a keyword is not a string. -/
  | notString (keyword : Keyword) (found : Json.Kind)
  /-- The value of a keyword is not a boolean. -/
  | notBoolean (keyword : Keyword) (found : Json.Kind)
  /-- The value of `enum` is not an array. -/
  | enumNotArray
  /-- An item of an enum is not a string. -/
  | enumItemNotString (found : Json.Kind)
  /-- An item of an enum was there before. -/
  | enumItemRepeated (item : String)
  /-- No primitive type has this name. -/
  | unknownType (name : String)
  /-- Keywords of two forms stand together. -/
  | formsCombined (first second : Keyword)
  /-- A keyword is missing.  Only a discriminator can lack one: the other forms
  are there because their keyword is. -/
  | missing (keyword : Keyword)
deriving DecidableEq

namespace SchemaDefect

def reason : SchemaDefect → String
  | schemaNotObject found => "schema must be an object, found " ++ found.name
  | notObject keyword found =>
      keyword.name ++ " must be an object, found " ++ found.name
  | notString keyword found =>
      keyword.name ++ " must be a string, found " ++ found.name
  | notBoolean keyword found =>
      keyword.name ++ " must be a boolean, found " ++ found.name
  | enumNotArray => "enum must be an array of strings"
  | enumItemNotString found =>
      "enum values must be strings, found " ++ found.name
  | enumItemRepeated item => "duplicate enum value '" ++ item ++ "'"
  | unknownType name => PrimitiveType.unknownText name
  | formsCombined first second =>
      "invalid form: '" ++ first.name ++ "' and '" ++ second.name ++
        "' cannot be combined"
  | missing keyword => "discriminator requires a '" ++ keyword.name ++ "'"

end SchemaDefect

/-- The first defect of a value that is no schema, and its place. -/
structure SchemaError where
  path : SchemaPath
  defect : SchemaDefect
deriving DecidableEq

namespace SchemaError

def reason (e : SchemaError) : String :=
  e.defect.reason ++ " (at " ++ e.path.text ++ ")"

def message (e : SchemaError) : String :=
  invalidSchemaText e.reason

end SchemaError

namespace FormKind

/-- The first keyword of a kind that an object has. -/
def present? (members : KeyMap Json) (kind : FormKind) : Option Keyword :=
  kind.keywords.find? fun keyword => members.contains keyword.name

/-- The kinds whose keywords an object has, each with the first of them. -/
def present (members : KeyMap Json) : List (FormKind × Keyword) :=
  all.filterMap fun kind =>
    (kind.present? members).map fun keyword => (kind, keyword)

/-- The one kind that an object asks for, if it asks for any. -/
def requested? (path : SchemaPath) (members : KeyMap Json) :
    Except SchemaError (Option FormKind) :=
  match present members with
  | [] => .ok none
  | [(kind, _)] => .ok (some kind)
  | (_, first) :: (_, second) :: _ => .error ⟨path, .formsCombined first second⟩

end FormKind

namespace Schema

def stringMember (keyword : Keyword) (path : SchemaPath)
    (members : KeyMap Json) :
    Except SchemaError String :=
  match members.get? keyword.name with
  | some (.str s) => .ok s
  | some other => .error ⟨path, .notString keyword other.kind⟩
  | none => .error ⟨path, .missing keyword⟩

/-- The boolean that a keyword has for its value, which is false when the
keyword is missing. -/
def booleanMember (keyword : Keyword) (path : SchemaPath)
    (members : KeyMap Json) :
    Except SchemaError Bool :=
  match members.get? keyword.name with
  | none => .ok false
  | some (.bool b) => .ok b
  | some other => .error ⟨path, .notBoolean keyword other.kind⟩

def typeMember (path : SchemaPath) (members : KeyMap Json) :
    Except SchemaError PrimitiveType := do
  let name ← stringMember .type path members
  match PrimitiveType.ofName? name with
  | some type => return type
  | none => throw ⟨path, .unknownType name⟩

/-- Adds the items of an enum to a set, the first of them at position
`index`. -/
def enumItems (path : SchemaPath) : Nat → KeySet → List Json →
    Except SchemaError KeySet
  | _, seen, [] => .ok seen
  | index, seen, item :: rest =>
      let place := path.under .enum ++ [Digits.text index]
      match item with
      | .str s =>
          if seen.contains s then .error ⟨place, .enumItemRepeated s⟩
          else enumItems path (index + 1) (KeySet.insert seen s) rest
      | other => .error ⟨place, .enumItemNotString other.kind⟩

def enumMember (path : SchemaPath) (members : KeyMap Json) :
    Except SchemaError KeySet :=
  match members.get? Keyword.enum.name with
  | some (.arr items) => enumItems path 0 .nil items
  | _ => .error ⟨path, .enumNotArray⟩

mutual

/-- Reads a value at a place as a schema. -/
def decode (path : SchemaPath) : Json → Except SchemaError Schema
  | .obj members => do
      let definitions ←
        decodeMapMember .definitions (path.under .definitions) members
      match ← FormKind.requested? path members with
      | none => return ⟨definitions, .empty⟩
      | some .ref =>
          return ⟨definitions, .ref (← stringMember .ref path members)⟩
      | some .type => return ⟨definitions, .type (← typeMember path members)⟩
      | some .enum => return ⟨definitions, .enum (← enumMember path members)⟩
      | some .elements =>
          return ⟨definitions,
            .elements (← decodeMember .elements (path.under .elements) members)⟩
      | some .properties =>
          let required ←
            decodeMapMember .properties (path.under .properties) members
          let optional ←
            decodeMapMember .optionalProperties
              (path.under .optionalProperties) members
          let additional ← booleanMember .additionalProperties path members
          return ⟨definitions, .properties required optional additional⟩
      | some .values =>
          return ⟨definitions,
            .values (← decodeMember .values (path.under .values) members)⟩
      | some .discriminator =>
          let (tag, mapping) ←
            decodeDiscriminator (path.under .discriminator) members
          return ⟨definitions, .discriminator tag mapping⟩
  | other => throw ⟨path, .schemaNotObject other.kind⟩

def decodeMember (keyword : Keyword) (path : SchemaPath) {lo : Option String} :
    Entries Json lo → Except SchemaError Schema
  | .nil => throw ⟨path, .missing keyword⟩
  | .cons key _ value rest =>
      if keyword.name = key then decode path value
      else decodeMember keyword path rest

/-- Reads the value of a keyword as a map of schemas, which may be missing. -/
def decodeMapMember (keyword : Keyword) (path : SchemaPath)
    {lo : Option String} :
    Entries Json lo → Except SchemaError (Option (Entries Schema none))
  | .nil => return none
  | .cons key _ value rest =>
      if keyword.name = key then
        match value with
        | .obj entries => some <$> decodeEntries path entries
        | other => throw ⟨path, .notObject keyword other.kind⟩
      else decodeMapMember keyword path rest

/-- Reads the value of `discriminator`: the tag and the mapping. -/
def decodeDiscriminator (path : SchemaPath) {lo : Option String} :
    Entries Json lo → Except SchemaError (String × Entries Schema none)
  | .nil => throw ⟨path, .missing .discriminator⟩
  | .cons key _ value rest =>
      if Keyword.discriminator.name = key then
        match value with
        | .obj members => do
            let tag ← stringMember .tag path members
            match ← decodeMapMember .mapping (path.under .mapping) members with
            | some mapping => return (tag, mapping)
            | none => throw ⟨path, .missing .mapping⟩
        | other => throw ⟨path, .notObject .discriminator other.kind⟩
      else decodeDiscriminator path rest

/-- Reads every value of an object as a schema, in key order. -/
def decodeEntries (path : SchemaPath) {lo : Option String} :
    Entries Json lo → Except SchemaError (Entries Schema lo)
  | .nil => return .nil
  | .cons name above value rest => do
      let schema ← decode (path ++ [name]) value
      return .cons name above schema (← decodeEntries path rest)

end

def ofJson? (value : Json) : Except SchemaError Schema :=
  decode [] value

end Schema

end SchemaForms
