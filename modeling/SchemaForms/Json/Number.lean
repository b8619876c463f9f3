import SchemaForms.Json.Numeral
/-!
The numbers of JSON texts.  A numeral without fraction and exponent that fits a
signed or unsigned 64-bit word is an integer.  Every other numeral is a 64-bit
float close to it: the digits that fit a word, scaled in float arithmetic.
-/

namespace SchemaForms

inductive Number where
  | int (value : Int)
  | float (value : Binary64)
deriving DecidableEq

namespace Number

def toBinary64? : Number → Option Binary64
  | int n => Binary64.ofInt? n
  | float x => some x

/-- The number that a numeral denotes.  A numeral beyond the finite floats
denotes none. -/
def ofNumeral? (n : Numeral) : Option Number :=
  match n.integer? with
  | some value => some (.int value)
  | none => (Binary64.scaled? n.decimal).map .float

def ofChars? (cs : List Char) : Option Number := do
  ofNumeral? (← Numeral.ofChars? cs)

example : ofChars? "255".toList = some (.int 255) := by decide +kernel

example : ofChars? "255.00000000000000001".toList =
    some (.float ⟨255 * Binary64.one⟩) ∧
    ofChars? "0.9999999999999999".toList = some (.float ⟨Binary64.one⟩) := by
  decide +kernel

example : ofChars? "-0".toList = some (.float ⟨0⟩) ∧
    ofChars? "1e-400".toList = some (.float ⟨0⟩) := by
  decide +kernel

example : ofChars? "1e400".toList = none ∧
    ofChars? "0e400".toList = some (.float ⟨0⟩) := by
  decide +kernel

end Number

end SchemaForms
