import SchemaForms.PrimitiveType
import SchemaForms.Schema.Keyword
/-!
Schemas.  A schema has one of eight forms, and may carry named definitions, to
which the `ref` form points.  Not every schema makes sense; what a sensible one
has to satisfy is said by its issues.
-/

namespace SchemaForms

mutual

/-- A form, and the definitions that stand beside it. -/
structure Schema where
  definitions : Option (Entries Schema none)
  form : Form

/-- What a schema demands of an instance. -/
inductive Form where
  /-- Anything. -/
  | empty
  /-- What the root definition of this name demands. -/
  | ref (name : String)
  /-- A value of a primitive type. -/
  | type (type : PrimitiveType)
  /-- One of these strings. -/
  | enum (values : Entries Unit none)
  /-- An array whose items satisfy a schema. -/
  | elements (schema : Schema)
  /-- An object with required and optional members, and perhaps others.  A map
  is missing when the schema does not write its keyword. -/
  | properties (required optional : Option (Entries Schema none))
      (additional : Bool)
  /-- An object whose members all satisfy a schema. -/
  | values (schema : Schema)
  /-- An object in which the member `tag` selects a schema for the whole
  object. -/
  | discriminator (tag : String) (mapping : Entries Schema none)

end

namespace Form

/-- The kind of a form, which the empty form has not. -/
def kind? : Form → Option FormKind
  | empty => none
  | ref _ => some .ref
  | type _ => some .type
  | enum _ => some .enum
  | elements _ => some .elements
  | properties .. => some .properties
  | values _ => some .values
  | discriminator .. => some .discriminator

/-- The keyword that names a form. -/
def keyword? (form : Form) : Option String :=
  form.kind?.map (·.keyword.name)

end Form

namespace Schema

def empty : Schema := ⟨none, .empty⟩

def ofForm (form : Form) : Schema := ⟨none, form⟩

def definition? (s : Schema) (name : String) : Option Schema :=
  s.definitions.bind (·.get? name)

end Schema

end SchemaForms
