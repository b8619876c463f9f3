import SchemaForms.Schema.Keyword
/-!
Places inside a schema, and how a refusal is worded.
-/

namespace SchemaForms

/-- The text for a schema that is refused. -/
def invalidSchemaText (reason : String) : String :=
  "invalid schema: " ++ reason

/-- A place inside a schema: the keywords and keys that lead there from the
root. -/
abbrev SchemaPath := List String

namespace SchemaPath

/-- A path in words, each step behind a slash and the root as a slash alone. -/
def text (path : SchemaPath) : String :=
  if path.isEmpty then "/" else String.join (path.map ("/" ++ ·))

def under (path : SchemaPath) (keyword : Keyword) : SchemaPath :=
  path ++ [keyword.name]

end SchemaPath

example : SchemaPath.text [] = "/" ∧
    SchemaPath.text ["properties", "a"] = "/properties/a" := by
  decide +kernel

end SchemaForms
