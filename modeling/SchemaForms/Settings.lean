import SchemaForms.Toml.Reader
import SchemaForms.Validation.Limits
/-!
Settings files: the limits of validation, in the table `validator` of a TOML
document.
-/

namespace SchemaForms.Settings

def limit? : Option Toml.Item → Option Nat
  | none => some 0
  | some (.integer n) => if 0 ≤ n then some n.toNat else none
  | some _ => none

/-- Reads limits from a table, in which other keys are ignored, or from an array
with the depth before the errors, in which further items are ignored.  A date
has neither of the two keys. -/
def limitsOfItem? : Toml.Item → Option Limits
  | .table _ members => do
      return ⟨← limit? (members.get? "max_depth"),
        ← limit? (members.get? "max_errors")⟩
  | .array items => do return ⟨← limit? items[0]?, ← limit? items[1]?⟩
  | .date => some .unlimited
  | _ => none

/-- The limits that a settings file asks for; there are none by default. -/
def limitsOfText? (text : String) : Option Limits := do
  let table ← Toml.Table.ofText? text
  match table.get? "validator" with
  | none => return .unlimited
  | some item => limitsOfItem? item

end SchemaForms.Settings
