import SchemaForms.Binary64
import SchemaForms.Digits
/-!
The numerals of JSON texts: digits with an optional sign in front, and perhaps a
fraction and an exponent behind them.  The digits of a numeral are kept as far
as they fit an unsigned 64-bit word, which is what `Numeral.decimal` gives.
-/

namespace SchemaForms

structure Numeral where
  negative : Bool
  /-- The digits in front of the point. -/
  whole : List Nat
  /-- The digits behind the point. -/
  fraction : Option (List Nat)
  /-- The number behind the exponent mark. -/
  exponent : Option Int
deriving DecidableEq

namespace Numeral

/-- The digits in front of the point.  There is no needless zero among them. -/
def whole? : List Char → Option (List Nat)
  | '0' :: _ :: _ => none
  | cs => Digits.ofChars? cs

/-- The exponent behind its mark, with an optional sign. -/
def exponent? : List Char → Option Int
  | '+' :: cs => (Digits.value? cs).map Int.ofNat
  | '-' :: cs => (Digits.value? cs).map fun n => -(n : Int)
  | cs => (Digits.value? cs).map Int.ofNat

/-- A part of a numeral that may be missing. -/
def optional? {α : Type} (part? : List Char → Option α) : Option (List Char) →
    Option (Option α)
  | none => some none
  | some cs => (part? cs).map some

/-- Splits a run of characters in front of the first one that satisfies `p`,
which is dropped. -/
def splitAtFirst (p : Char → Bool) (cs : List Char) :
    List Char × Option (List Char) :=
  match cs.dropWhile fun c => !p c with
  | [] => (cs, none)
  | _ :: after => (cs.takeWhile fun c => !p c, some after)

def ofChars? (cs : List Char) : Option Numeral := do
  let (negative, magnitude) := match cs with
    | '-' :: rest => (true, rest)
    | _ => (false, cs)
  let (mantissa, power) :=
    splitAtFirst (fun c => c == 'e' || c == 'E') magnitude
  let (integral, places) := splitAtFirst (· == '.') mantissa
  let whole ← whole? integral
  let fraction ← optional? Digits.ofChars? places
  let exponent ← optional? exponent? power
  return ⟨negative, whole, fraction, exponent⟩

/-- Whether an integer fits a signed or an unsigned 64-bit word. -/
def fitsWord (n : Int) : Bool :=
  -9223372036854775808 ≤ n && n ≤ 18446744073709551615

/-- The integer that a numeral without fraction and exponent denotes, if it fits
a word.  Minus zero is no integer. -/
def integer? (n : Numeral) : Option Int :=
  let magnitude := Digits.number n.whole
  let value : Int := if n.negative then -magnitude else magnitude
  if n.fraction.isSome || n.exponent.isSome || n.negative && magnitude == 0 then
    none
  else if fitsWord value then some value
  else none

/-- The decimal of the digits that fit a word.  A digit in front of the point
that does not fit leaves its place behind, as a power of ten; one behind the
point leaves nothing. -/
def decimal (n : Numeral) : Decimal :=
  let places := n.fraction.getD []
  let (whole, wholeLeft) := Digits.append 0 n.whole
  let (digits, placesLeft) := Digits.append whole places
  ⟨n.negative, digits,
    n.exponent.getD 0 + wholeLeft + placesLeft - places.length⟩

example : ofChars? "-1.50e+3".toList = some ⟨true, [1], some [5, 0], some 3⟩ ∧
    ofChars? "01".toList = none ∧ ofChars? "1.".toList = none := by
  decide +kernel

example : (ofChars? "18446744073709551616".toList).map decimal =
      some ⟨false, 1844674407370955161, 1⟩ ∧
    (ofChars? "0.18446744073709551616".toList).map decimal =
      some ⟨false, 1844674407370955161, -19⟩ := by decide +kernel

end Numeral

end SchemaForms
