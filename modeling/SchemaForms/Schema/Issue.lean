import SchemaForms.Schema.Basic
import SchemaForms.Schema.Path
/-!
What keeps a schema from making sense.  Definitions belong to the root, a ref
has to name one of them, an enum needs a value, a member is required or optional
but not both, and the branches of a discriminator are properties forms that
leave the tag alone.
-/

namespace SchemaForms

/-- A rule that a schema breaks. -/
inductive SchemaFault where
  /-- Definitions stand below the root. -/
  | nestedDefinitions
  /-- A ref names no root definition. -/
  | unknownRef (name : String)
  /-- An enum has no value. -/
  | emptyEnum
  /-- A member is both required and optional. -/
  | overlappingProperties (key : String)
  /-- A branch of a discriminator has another form. -/
  | branchNotProperties (found : Option FormKind)
  /-- A branch of a discriminator declares the tag. -/
  | tagRedeclared (tag : String)
deriving DecidableEq

namespace SchemaFault

def code : SchemaFault → String
  | nestedDefinitions => "non_root_definitions"
  | unknownRef _ => "unknown_ref"
  | emptyEnum => "empty_enum"
  | overlappingProperties _ => "overlapping_properties"
  | branchNotProperties _ => "mapping_not_properties"
  | tagRedeclared _ => "tag_redeclared"

def message : SchemaFault → String
  | nestedDefinitions => "definitions are only allowed on the root schema"
  | unknownRef name => "ref '" ++ name ++ "' does not name a root definition"
  | emptyEnum => "enum must contain at least one value"
  | overlappingProperties key =>
      "'" ++ key ++ "' is both a required and an optional property"
  | branchNotProperties found =>
      "discriminator mapping values must be properties schemas, found " ++
        (found.map (·.keyword.name)).getD "empty"
  | tagRedeclared tag =>
      "discriminator tag '" ++ tag ++ "' must not be declared as a property"

end SchemaFault

/-- A broken rule and the place where it is broken. -/
structure SchemaIssue where
  path : SchemaPath
  fault : SchemaFault
deriving DecidableEq

namespace SchemaIssue

def text (issue : SchemaIssue) : String :=
  issue.fault.message ++ " at " ++ issue.path.text

/-- The texts of several issues as one refusal. -/
def message (issues : List SchemaIssue) : String :=
  invalidSchemaText (String.intercalate "; " (issues.map text))

end SchemaIssue

/-- The keys that two maps of members share, in the order of the first. -/
def sharedKeys (required optional : Option (KeyMap Schema)) : List String :=
  match required, optional with
  | some required, some optional => required.keys.filter optional.contains
  | _, _ => []

/-- Whether a map of members that may be missing declares a key. -/
def declares (members : Option (KeyMap Schema)) (key : String) : Bool :=
  members.any (·.contains key)

/-- What is wrong with a form as a branch of a discriminator with this tag. -/
def Form.branchFault? (tag : String) : Form → Option SchemaFault
  | .properties required optional _ =>
      if declares required tag || declares optional tag then
        some (.tagRedeclared tag) else none
  | form => some (.branchNotProperties form.kind?)

mutual

def Schema.issuesBelow (isDefined : String → Bool) (path : SchemaPath) :
    Schema → List SchemaIssue
  | ⟨definitions, form⟩ =>
      (if definitions.isSome then [⟨path, .nestedDefinitions⟩] else []) ++
        form.issues isDefined path

/-- The issues of a form at a place, where `isDefined` tells the names of the
root definitions. -/
def Form.issues (isDefined : String → Bool) (path : SchemaPath) :
    Form → List SchemaIssue
  | .empty => []
  | .type _ => []
  | .ref name => if isDefined name then [] else [⟨path, .unknownRef name⟩]
  | .enum values => if values.isEmpty then [⟨path, .emptyEnum⟩] else []
  | .elements schema => schema.issuesBelow isDefined (path.under .elements)
  | .values schema => schema.issuesBelow isDefined (path.under .values)
  | .properties required optional _ =>
      (sharedKeys required optional).map (⟨path, .overlappingProperties ·⟩) ++
        optionalIssues isDefined (path.under .properties) required ++
        optionalIssues isDefined (path.under .optionalProperties) optional
  | .discriminator tag mapping =>
      branchIssues isDefined tag
        ((path.under .discriminator).under .mapping) mapping

def optionalIssues (isDefined : String → Bool) (path : SchemaPath) :
    Option (Entries Schema none) → List SchemaIssue
  | none => []
  | some schemas => entryIssues isDefined path schemas

def entryIssues (isDefined : String → Bool) (path : SchemaPath)
    {lo : Option String} : Entries Schema lo → List SchemaIssue
  | .nil => []
  | .cons name _ schema rest =>
      schema.issuesBelow isDefined (path ++ [name]) ++
        entryIssues isDefined path rest

/-- The issues of the branches of a discriminator, each with what is wrong with
it as a branch. -/
def branchIssues (isDefined : String → Bool) (tag : String) (path : SchemaPath)
    {lo : Option String} : Entries Schema lo → List SchemaIssue
  | .nil => []
  | .cons name _ schema rest =>
      schema.issuesBelow isDefined (path ++ [name]) ++
        (schema.form.branchFault? tag).toList.map (⟨path ++ [name], ·⟩) ++
        branchIssues isDefined tag path rest

end

namespace Schema

def isDefined (s : Schema) (name : String) : Bool :=
  (s.definition? name).isSome

/-- Every issue of a schema, taken as the root: those of its form, then those of
its definitions. -/
def issues (s : Schema) : List SchemaIssue :=
  s.form.issues s.isDefined [] ++
    optionalIssues s.isDefined (SchemaPath.under [] .definitions) s.definitions

/-- Accepts a schema that has no issue. -/
def check (s : Schema) : Except (List SchemaIssue) Unit :=
  if s.issues.isEmpty then .ok () else .error s.issues

end Schema

end SchemaForms
