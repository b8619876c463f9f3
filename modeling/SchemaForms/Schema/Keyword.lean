/-!
The words of the schema language.  Seven groups of keywords select a form, and a
schema may use one of the groups at most.
-/

namespace SchemaForms

inductive Keyword where
  | definitions
  | ref
  | type
  | enum
  | elements
  | properties
  | optionalProperties
  | additionalProperties
  | values
  | discriminator
  | tag
  | mapping
deriving DecidableEq

namespace Keyword

def name : Keyword → String
  | definitions => "definitions"
  | ref => "ref"
  | type => "type"
  | enum => "enum"
  | elements => "elements"
  | properties => "properties"
  | optionalProperties => "optionalProperties"
  | additionalProperties => "additionalProperties"
  | values => "values"
  | discriminator => "discriminator"
  | tag => "tag"
  | mapping => "mapping"

/-- Every word, those of a schema before those of a discriminator. -/
def all : List Keyword :=
  [definitions, ref, type, enum, elements, properties, optionalProperties,
    additionalProperties, values, discriminator, tag, mapping]

def ofName? (name : String) : Option Keyword :=
  all.find? fun keyword => keyword.name = name

theorem ofName?_name (keyword : Keyword) :
    ofName? keyword.name = some keyword := by
  cases keyword <;> decide

theorem name_of_ofName? {name : String} {keyword : Keyword}
    (h : ofName? name = some keyword) :
    keyword.name = name := by
  simpa using List.find?_some h

/-- No two words are written alike. -/
theorem name_injective {k l : Keyword} (h : k.name = l.name) : k = l := by
  have found := ofName?_name k
  rw [h, ofName?_name] at found
  exact (Option.some.inj found).symm

end Keyword

inductive FormKind where
  | ref
  | type
  | enum
  | elements
  | properties
  | values
  | discriminator
deriving DecidableEq

namespace FormKind

/-- Every kind, in the order in which a conflict names them. -/
def all : List FormKind :=
  [ref, type, enum, elements, properties, values, discriminator]

/-- The keywords of a kind, the first of which names it. -/
def keywords : FormKind → List Keyword
  | ref => [.ref]
  | type => [.type]
  | enum => [.enum]
  | elements => [.elements]
  | properties => [.properties, .optionalProperties, .additionalProperties]
  | values => [.values]
  | discriminator => [.discriminator]

def keyword : FormKind → Keyword
  | ref => .ref
  | type => .type
  | enum => .enum
  | elements => .elements
  | properties => .properties
  | values => .values
  | discriminator => .discriminator

end FormKind

end SchemaForms
