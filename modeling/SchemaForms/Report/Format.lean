import SchemaForms.Json.Tree
/-!
The format of reports, described in JSON Schema.
-/

namespace SchemaForms.Report

/-- The address of the dialect in which the description is written. -/
def dialect : String :=
  String.intercalate "/" ["http:", "", "json-schema.org", "draft-07", "schema#"]

def arrayOf (items : List (String × Json.Tree)) : Json.Tree :=
  .obj [("type", .str "array"), ("items", .obj items)]

def flag (description : String) : Json.Tree :=
  .obj [("description", .str description), ("type", .str "boolean")]

/-- The description of an object that needs to have the given members. -/
def objectWith (required : List String)
    (properties : List (String × Json.Tree)) :
    List (String × Json.Tree) :=
  [("type", .str "object"), ("required", .arr (required.map .str)),
    ("properties", .obj properties)]

def format : Json.Tree :=
  .obj <|
    [("$schema", .str dialect), ("title", .str "ValidationReport"),
      ("description",
        .str "Serializable outcome of validating one instance.")] ++
    objectWith ["errors", "truncated", "valid"]
      [("errors", arrayOf [("$ref", .str "#/definitions/ValidationError")]),
        ("truncated", flag
          ("True when collection stopped at the configured error limit; " ++
            "further errors may exist. Also set when the instance has " ++
            "exactly that many.")),
        ("valid", flag "True when no errors were found.")] ++
    [("definitions", .obj
      [("ValidationError", .obj <|
        ("description", .str
          ("One constraint violation, located in both the instance " ++
            "and the schema.")) ::
        objectWith ["instancePath", "schemaPath"]
          [("instancePath", arrayOf [("type", .str "string")]),
            ("schemaPath", arrayOf [("type", .str "string")])])])]

end SchemaForms.Report
