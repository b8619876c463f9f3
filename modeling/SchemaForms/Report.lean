import SchemaForms.Json.Tree
import SchemaForms.Validation.Limits
import SchemaForms.Validation.Violation
/-!
Reports on instances: whether an instance is valid, whether the collection of
violations was cut off, and the violations.  A report is written as an object,
and read from an object or from an array of its members in the same order.
-/

namespace SchemaForms

namespace Violation

def pathTree (path : List String) : Json.Tree :=
  .arr (path.map .str)

def tree (v : Violation) : Json.Tree :=
  .obj [("instancePath", pathTree v.instancePath),
    ("schemaPath", pathTree v.schemaPath)]

/-- Reads a path, all of whose steps have to be strings. -/
def pathOfJson? : Json → Option (List String)
  | .arr items => items.mapM fun
      | .str s => some s
      | _ => none
  | _ => none

/-- Reads a violation from an object, in which other members are ignored, or
from an array of two. -/
def ofJson? : Json → Option Violation
  | .obj members => do
      return ⟨← pathOfJson? (← members.get? "instancePath"),
        ← pathOfJson? (← members.get? "schemaPath")⟩
  | .arr [instancePath, schemaPath] => do
      return ⟨← pathOfJson? instancePath, ← pathOfJson? schemaPath⟩
  | _ => none

end Violation

/-- The outcome of the validation of one instance. -/
structure Report where
  /-- No violation was found. -/
  valid : Bool
  /-- The collection of violations stopped at its limit, so that there may be
  more of them. -/
  truncated : Bool
  errors : List Violation
deriving DecidableEq

namespace Report

/-- The report on the violations that a validation within some limits found. -/
def ofViolations (limits : Limits) (errors : List Violation) : Report :=
  ⟨errors.isEmpty, limits.errorsReached errors.length, errors⟩

def members (r : Report) : List (String × Json.Tree) :=
  [("valid", .bool r.valid), ("truncated", .bool r.truncated),
    ("errors", .arr (r.errors.map Violation.tree))]

def tree (r : Report) : Json.Tree :=
  .obj r.members

def flag? : Json → Option Bool
  | .bool b => some b
  | _ => none

def errors? : Json → Option (List Violation)
  | .arr items => items.mapM Violation.ofJson?
  | _ => none

/-- Reads a report from an object, in which other members are ignored, or from
an array of three. -/
def ofJson? : Json → Option Report
  | .obj members => do
      return ⟨← flag? (← members.get? "valid"),
        ← flag? (← members.get? "truncated"),
        ← errors? (← members.get? "errors")⟩
  | .arr [valid, truncated, errors] => do
      return ⟨← flag? valid, ← flag? truncated, ← errors? errors⟩
  | _ => none

end Report

end SchemaForms
