import SchemaForms.Json.Basic
/-!
The limits of a validation.  A limit of zero is no limit.
-/

namespace SchemaForms

structure Limits where
  /-- How many refs may be active at once.  The root schema does not count. -/
  maxDepth : Nat
  /-- How many violations are collected. -/
  maxErrors : Nat
deriving DecidableEq

namespace Limits

def unlimited : Limits := ⟨0, 0⟩

/-- Whether one more nested ref would be too many. -/
def depthReached (limits : Limits) (depth : Nat) : Bool :=
  0 < limits.maxDepth && limits.maxDepth ≤ depth

/-- Whether a number of violations is all that may be collected. -/
def errorsReached (limits : Limits) (count : Nat) : Bool :=
  0 < limits.maxErrors && limits.maxErrors ≤ count

/-- A limit as JSON: an integer that fits an unsigned 64-bit word. -/
def ofNumber? : Json → Option Nat
  | .num (.int n) =>
      if 0 ≤ n && n.toNat < UInt64.size then some n.toNat else none
  | _ => none

def ofMember? : Option Json → Option Nat
  | none => some 0
  | some value => ofNumber? value

/-- Reads limits from an object, in which unknown members are ignored, or from
an array with the depth before the errors.  A limit that is missing is zero. -/
def ofJson? : Json → Option Limits
  | .obj members => do
      return ⟨← ofMember? (members.get? "max_depth"),
        ← ofMember? (members.get? "max_errors")⟩
  | .arr items =>
      if items.length ≤ 2 then do
        return ⟨← ofMember? items[0]?, ← ofMember? items[1]?⟩
      else none
  | _ => none

end Limits

end SchemaForms
