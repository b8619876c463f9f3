/-!
Runs of digits, decimal and of other bases.  Only ASCII digits and letters
count.
-/

namespace SchemaForms.Digits

/-- The digits of a text.  A text that is empty or holds anything but digits has
none. -/
def ofChars? (cs : List Char) : Option (List Nat) :=
  if cs.isEmpty || !cs.all Char.isDigit then none
  else some (cs.map fun c => c.toNat - '0'.toNat)

def number (digits : List Nat) : Nat :=
  digits.foldl (fun n digit => 10 * n + digit) 0

def value? (cs : List Char) : Option Nat :=
  (ofChars? cs).map number

/-- Appends digits to a number as long as the result fits an unsigned 64-bit
word.  The second result is the number of digits that are left. -/
def append (n : Nat) : List Nat → Nat × Nat
  | [] => (n, 0)
  | digit :: rest =>
      if 10 * n + digit < UInt64.size then append (10 * n + digit) rest
      else (n, (digit :: rest).length)

/-- A number of exactly `width` digits at the front of a text, and the text
behind it. -/
def take? (width : Nat) (cs : List Char) : Option (Nat × List Char) :=
  if (cs.take width).length = width then
    (value? (cs.take width)).map fun n => (n, cs.drop width)
  else none

/-- The value of a hexadecimal digit, in either case. -/
def hexDigit? (c : Char) : Option Nat :=
  if c.isDigit then some (c.toNat - '0'.toNat)
  else if 'a' ≤ c && c ≤ 'f' then some (c.toNat - 'a'.toNat + 10)
  else if 'A' ≤ c && c ≤ 'F' then some (c.toNat - 'A'.toNat + 10)
  else none

/-- The number that hexadecimal digits write in a given base. -/
def based? (base : Nat) (cs : List Char) : Option Nat := do
  let digits ← cs.mapM hexDigit?
  if digits.isEmpty || digits.any (base ≤ ·) then none
  else some (digits.foldl (fun n digit => base * n + digit) 0)

def hexValue? (cs : List Char) : Option Nat :=
  based? 16 cs

def text (n : Nat) : String :=
  String.ofList (Nat.toDigits 10 n)

theorem text_injective {m n : Nat} (htext : text m = text n) : m = n := by
  have hdigits := String.ofList_injective htext
  rw [← Nat.ofDigitChars_ten_toDigits (n := m), hdigits,
    Nat.ofDigitChars_ten_toDigits]

example : value? ['0', '4', '2'] = some 42 ∧ value? [] = none ∧
    value? ['4', '-'] = none := by decide

example : append 1 [8, 4] = (184, 0) ∧
    append 1844674407370955161 [6, 0] = (1844674407370955161, 2) := by
  decide

example : take? 2 ['1', '2', '3'] = some (12, ['3']) ∧
    take? 2 ['1'] = none := by decide

example : text 0 = "0" ∧ text 120 = "120" := by decide +kernel

end SchemaForms.Digits
