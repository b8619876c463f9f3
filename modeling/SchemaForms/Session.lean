import SchemaForms.Schema.Decode
import SchemaForms.Schema.Encode
import SchemaForms.Schema.Issue
import SchemaForms.Report
import SchemaForms.Validation.Validate
/-!
Sessions: a schema that is edited step by step, and the limits under which
instances are validated against it.  An edit that fails leaves everything as it
was.
-/

namespace SchemaForms

namespace Schema

def strip (s : Schema) : Schema :=
  ofForm s.form

/-- Arrays of what a schema accepts.  The schema keeps its definitions, which
stand below the root from then on. -/
def wrapElements (s : Schema) : Schema :=
  ofForm (.elements s)

def wrapValues (s : Schema) : Schema :=
  ofForm (.values s)

def define (s : Schema) (name : String) (definition : Schema) : Schema :=
  { s with
    definitions :=
      some (KeyMap.insert (s.definitions.getD .nil) name definition) }

/-- Removes the definition of a name, if there is one.  A map that has become
empty stays. -/
def undefine (s : Schema) (name : String) : Schema :=
  { s with definitions := s.definitions.map (·.erase name) }

end Schema

/-- A change of the schema of a session. -/
inductive Edit where
  | load (source : Json)
  | empty
  | strip
  | wrapElements
  | wrapValues
  | define (name : String) (source : Json)
  | undefine (name : String)

namespace Edit

def apply (s : Schema) : Edit → Except SchemaError Schema
  | load source => Schema.ofJson? source
  | empty => .ok .empty
  | strip => .ok s.strip
  | wrapElements => .ok s.wrapElements
  | wrapValues => .ok s.wrapValues
  | define name source => do return s.define name (← Schema.ofJson? source)
  | undefine name => .ok (s.undefine name)

end Edit

/-- What a session remembers. -/
structure Session where
  schema : Schema
  limits : Limits

namespace Session

/-- A session starts with the schema that accepts everything, and without
limits. -/
def start : Session := ⟨.empty, .unlimited⟩

def edit (s : Session) (e : Edit) : Session × Except SchemaError Schema :=
  match e.apply s.schema with
  | .ok schema => ({ s with schema }, .ok schema)
  | .error error => (s, .error error)

/-- Validates an instance against the schema as it stands. -/
def validate (s : Session) (value : Json) :
    Except ValidationFailure Report := do
  return .ofViolations s.limits (← SchemaForms.validate s.limits s.schema value)

end Session

end SchemaForms
