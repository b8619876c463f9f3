/-!
Violations.  A violation is a pair of places: the part of the instance that is
refused, and the part of the schema that refuses it.
-/

namespace SchemaForms

structure Violation where
  instancePath : List String
  schemaPath : List String
deriving DecidableEq

namespace Violation

/-- The place in the instance, its steps joined by slashes. -/
def instancePointer (v : Violation) : String :=
  String.intercalate "/" v.instancePath

def schemaPointer (v : Violation) : String :=
  String.intercalate "/" v.schemaPath

def text (v : Violation) : String :=
  "instance at '/" ++ v.instancePointer ++ "' rejected by schema at '/" ++
    v.schemaPointer ++ "'"

/-- The order of paths: step by step, and a path in front of those that it
begins. -/
def pathLe : List String → List String → Bool
  | [], _ => true
  | _ :: _, [] => false
  | a :: as, b :: bs => a < b || a == b && pathLe as bs

/-- The order of violations: by the place in the instance, then by that in the
schema. -/
def le (v w : Violation) : Bool :=
  if v.instancePath = w.instancePath then pathLe v.schemaPath w.schemaPath
  else pathLe v.instancePath w.instancePath

def sorted (vs : List Violation) : List Violation :=
  vs.mergeSort le

def distinct (vs : List Violation) : Nat :=
  vs.eraseDups.length

end Violation

end SchemaForms
