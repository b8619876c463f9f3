import SchemaForms.Calendar
import SchemaForms.Digits
/-!
Timestamps of RFC 3339: a date, `T`, a time of day with any number of decimals,
and the offset from universal time.  The reader takes one field after the other;
each step returns the rest of the text.
-/

namespace SchemaForms.Timestamp

/-- The text behind a character of a class. -/
def mark? (p : Char → Bool) : List Char → Option (List Char)
  | c :: rest => if p c then some rest else none
  | [] => none

def date? (cs : List Char) : Option (List Char) := do
  let (year, cs) ← Digits.take? 4 cs
  let cs ← mark? (· == '-') cs
  let (month, cs) ← Digits.take? 2 cs
  let cs ← mark? (· == '-') cs
  let (day, cs) ← Digits.take? 2 cs
  if isDate year month day then some cs else none

def timeOfDay? (cs : List Char) : Option (List Char) := do
  let (hour, cs) ← Digits.take? 2 cs
  let cs ← mark? (· == ':') cs
  let (minute, cs) ← Digits.take? 2 cs
  let cs ← mark? (· == ':') cs
  let (second, cs) ← Digits.take? 2 cs
  if isTimeOfDay hour minute second then some cs else none

/-- The text behind the decimals of a second, which may be missing as a
whole. -/
def decimals? : List Char → Option (List Char)
  | '.' :: rest =>
      if (rest.takeWhile Char.isDigit).isEmpty then none
      else some (rest.dropWhile Char.isDigit)
  | cs => some cs

/-- The text behind an offset: `Z`, or a sign with hours and minutes. -/
def offset? (isSign : Char → Bool) : List Char → Option (List Char)
  | c :: cs =>
      if c == 'Z' || c == 'z' then some cs
      else if isSign c then do
        let (hour, cs) ← Digits.take? 2 cs
        let cs ← mark? (· == ':') cs
        let (minute, cs) ← Digits.take? 2 cs
        if isUtcOffset hour minute then some cs else none
      else none
  | [] => none

/-- The signs of an offset; a minus may be the hyphen or the minus sign
U+2212. -/
def isOffsetSign (c : Char) : Bool :=
  c == '+' || c == '-' || c == '\u2212'

def rest? (cs : List Char) : Option (List Char) := do
  let cs ← date? cs
  let cs ← mark? (fun c => c == 'T' || c == 't') cs
  let cs ← timeOfDay? cs
  let cs ← decimals? cs
  offset? isOffsetSign cs

def accepts (text : String) : Bool :=
  rest? text.toList == some []

example : accepts "1985-04-12T23:20:50.52Z" ∧
    accepts "1996-12-19t16:39:57\u221208:00" := by
  decide +kernel

example : ¬ accepts "1985-04-12 23:20:50Z" ∧ ¬ accepts "1985-02-29T23:20:50Z" ∧
    ¬ accepts "1985-04-12T23:20:50.Z" ∧ ¬ accepts "1985-04-12T23:20:50Zz" := by
  decide +kernel

end SchemaForms.Timestamp
