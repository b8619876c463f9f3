import SchemaForms.Validation.Limits
import SchemaForms.Validation.Violation
/-!
Visits to the parts of an instance.  A visit knows the place it is at, collects
the violations it finds and may stop before its end.  `within` moves to another
place for a visit, and makes the opposite move behind it; that this leads back
is a property of the visit.
-/

namespace SchemaForms

/-- Where a visit is: in the instance, in the schema, and inside how many
refs. -/
structure Place where
  instancePath : List String
  schemaPath : List String
  depth : Nat
deriving DecidableEq

namespace Place

def root : Place := ⟨[], [], 0⟩

def underInstance (token : String) (p : Place) : Place :=
  { p with instancePath := p.instancePath ++ [token] }

def aboveInstance (p : Place) : Place :=
  { p with instancePath := p.instancePath.dropLast }

def underSchema (token : String) (p : Place) : Place :=
  { p with schemaPath := p.schemaPath ++ [token] }

def aboveSchema (p : Place) : Place :=
  { p with schemaPath := p.schemaPath.dropLast }

/-- The root definition of a name, inside one more ref. -/
def atDefinition (name : String) (p : Place) : Place :=
  { p with schemaPath := ["definitions", name], depth := p.depth + 1 }

/-- Outside a ref again, at the path in the schema that was left for it. -/
def outsideRef (schemaPath : List String) (p : Place) : Place :=
  { p with schemaPath := schemaPath, depth := p.depth - 1 }

theorem aboveInstance_underInstance (token : String) (p : Place) :
    (p.underInstance token).aboveInstance = p := by
  simp [underInstance, aboveInstance]

theorem aboveSchema_underSchema (token : String) (p : Place) :
    (p.underSchema token).aboveSchema = p := by
  simp [underSchema, aboveSchema]

theorem outsideRef_atDefinition (name : String) (p : Place) :
    (p.atDefinition name).outsideRef p.schemaPath = p := rfl

end Place

/-- The state of a validation. -/
structure Walk where
  place : Place
  found : Array Violation

/-- Why a validation stops before its end. -/
inductive Halt where
  /-- As many violations are found as may be collected. -/
  | errorLimit
  /-- A ref stands inside as many refs as may be active. -/
  | depthExceeded
  /-- A ref names no root definition. -/
  | unresolvedRef (name : String)
  /-- The refs lead in a circle that takes no part of the instance away. -/
  | endless
deriving DecidableEq

/-- A visit goes from one state to the next, and may halt there. -/
abbrev Visit := Walk → Walk × Option Halt

namespace Visit

def skip : Visit := fun walk => (walk, none)

def halt (reason : Halt) : Visit := fun walk => (walk, some reason)

def andThen (first next : Visit) : Visit := fun walk =>
  match first walk with
  | (walk, none) => next walk
  | (walk, some reason) => (walk, some reason)

def each {α : Type} (visit : α → Visit) : List α → Visit
  | [] => skip
  | item :: rest => (visit item).andThen (each visit rest)

/-- A visit between two moves: one away from the present place, and one from
wherever the visit ends.  Nothing but the second move brings the walk back, and
it is made also when the visit halts. -/
def within (enter leave : Place → Place) (visit : Visit) : Visit :=
  fun ⟨place, found⟩ =>
  match visit ⟨enter place, found⟩ with
  | (⟨place, found⟩, reason) => (⟨leave place, found⟩, reason)

def underInstance (token : String) (visit : Visit) : Visit :=
  within (Place.underInstance token) Place.aboveInstance visit

def underSchema (token : String) (visit : Visit) : Visit :=
  within (Place.underSchema token) Place.aboveSchema visit

/-- Finds a violation at the present place, and halts if it is the last one to
be collected. -/
def report (limits : Limits) : Visit := fun ⟨place, found⟩ =>
  let found := found.push ⟨place.instancePath, place.schemaPath⟩
  (⟨place, found⟩,
    if limits.errorsReached found.size then some .errorLimit else none)

end Visit

end SchemaForms
