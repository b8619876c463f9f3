import SchemaForms.Binary64
import SchemaForms.Scanner
import SchemaForms.Timestamp
import SchemaForms.Toml.Table
/-!
Reading TOML 1.0.  A document is a sequence of lines: assignments, headers and
empty lines, each with a comment or without.  Values nest at most 79 deep, and a
key has at most 79 parts.
-/

namespace SchemaForms.Toml

open Scanner

def isBlank (c : Char) : Bool :=
  c == ' ' || c == '\t'

/-- What may stand in comments and strings: anything but control characters, the
tab apart. -/
def isText (c : Char) : Bool :=
  c == '\t' || (0x20 ≤ c.toNat && c.toNat != 0x7F)

def blanks : Scanner Unit := do
  let _ ← run isBlank

/-- A line break: a line feed, with a carriage return in front of it or
without. -/
def newline : Scanner Unit :=
  char '\n' <|> word ['\r', '\n']

def comment : Scanner Unit := do
  char '#'
  let _ ← run isText

/-- What may stand around the items of an array: blanks, line breaks and
comments. -/
def gap : Scanner Unit := do
  blanks
  let _ ← many (opt comment *> newline *> blanks)

def letterEscape? : Char → Option Char
  | 'b' => some '\x08'
  | 't' => some '\t'
  | 'n' => some '\n'
  | 'f' => some '\x0c'
  | 'r' => some '\r'
  | '"' => some '"'
  | '\\' => some '\\'
  | _ => none

/-- The character with a number, which surrogates have not. -/
def scalar? (n : Nat) : Option Char :=
  if n.isValidChar then some (Char.ofNat n) else none

/-- A character given by exactly `width` hexadecimal digits. -/
def codePoint (width : Nat) : Scanner Char := fun cs => do
  let digits := cs.take width
  if digits.length = width then
    let n ← Digits.hexValue? digits
    let c ← scalar? n
    return (c, cs.drop width)
  else none

def escape : Scanner Char := do
  char '\\'
  match ← satisfy fun _ => true with
  | 'u' => codePoint 4
  | 'U' => codePoint 8
  | c => fun cs => (letterEscape? c).map fun c => (c, cs)

/-- A character that stands for itself between two quotes of a kind. -/
def plain (quote : Char) : Scanner Char :=
  satisfy fun c => isText c && c != quote && (quote != '"' || c != '\\')

def basicString : Scanner (List Char) :=
  char '"' *> many (escape <|> plain '"') <* char '"'

def literalString : Scanner (List Char) :=
  char '\'' *> many (plain '\'') <* char '\''

/-- A backslash at the end of a line, which joins the line to the next text
behind it. -/
def lineJoin : Scanner Unit := do
  char '\\'
  blanks
  newline
  let _ ← many (newline <|> do let _ ← satisfy isBlank)

def tripleQuote (quote : Char) : Scanner Unit :=
  word [quote, quote, quote]

/-- A string between triple quotes.  The line break behind the first three is no
part of it; one or two quotes may stand inside it, and also in front of the last
three. -/
def multiline (quote : Char) (piece : Scanner (List Char)) :
    Scanner (List Char) := do
  tripleQuote quote
  let _ ← opt newline
  let pieces ← many <|
    piece <|> (do newline; return ['\n']) <|> (do return [← plain quote]) <|>
      (do notBefore (tripleQuote quote); char quote; return [quote])
  tripleQuote quote
  let first ← opt (char quote)
  let second ← opt (char quote)
  return pieces.flatten ++ first.toList.map (fun _ => quote) ++
    second.toList.map fun _ => quote

def multilineBasic : Scanner (List Char) :=
  multiline '"' ((do lineJoin; return []) <|> (do return [← escape]))

def multilineLiteral : Scanner (List Char) :=
  multiline '\'' failure

def string : Scanner Item := do
  let text ← multilineBasic <|> basicString <|> multilineLiteral <|>
      literalString
  return .string (String.ofList text)

/-- A key that needs no quotes. -/
def bareKey : Scanner (List Char) := do
  let cs ← run fun c => c.isAlphanum || c == '_' || c == '-'
  if cs.isEmpty then failure else return cs

/-- How deep values may nest, and how many parts a key may have. -/
def nestingLimit : Nat := 79

/-- The parts of a key, between dots: those in front of the last one, and the
last one. -/
def dottedKey : Scanner (List String × String) := do
  let part := basicString <|> literalString <|> bareKey
  let parts ← separated (blanks *> part <* blanks) (char '.')
  match parts.reverse with
  | last :: front =>
      if parts.length ≤ nestingLimit then
        return (front.reverse.map String.ofList, String.ofList last)
      else failure
  | [] => failure

/-- Digits of a class, in groups that single underscores separate. -/
def grouped (isDigit : Char → Bool) : Scanner (List Char) := do
  let first ← satisfy isDigit
  let rest ← many (opt (char '_') *> satisfy isDigit)
  return first :: rest

/-- A sign, which may be missing; whether it is a minus. -/
def minus : Scanner Bool := do
  let sign ← opt (satisfy fun c => c == '+' || c == '-')
  return sign == some '-'

/-- Decimal digits without a needless zero in front. -/
def wholeDigits : Scanner (List Char) :=
  (do char '0'; return ['0']) <|> grouped Char.isDigit

/-- An integer that fits a signed 64-bit word. -/
def word64 (n : Int) : Scanner Item :=
  if -9223372036854775808 ≤ n && n ≤ 9223372036854775807 then return .integer n
  else failure

def basedInteger (mark : List Char) (base : Nat) : Scanner Item := do
  word mark
  let digits ← grouped fun c => (Digits.based? base [c]).isSome
  match Digits.based? base digits with
  | some n => word64 n
  | none => failure

def decimalInteger : Scanner Item := do
  let negative ← minus
  let digits ← wholeDigits
  match Digits.value? digits with
  | some n => word64 (if negative then -n else n)
  | none => failure

def integer : Scanner Item :=
  basedInteger ['0', 'x'] 16 <|> basedInteger ['0', 'o'] 8 <|>
    basedInteger ['0', 'b'] 2 <|> decimalInteger

def exponent : Scanner Int := do
  let _ ← satisfy fun c => c == 'e' || c == 'E'
  let negative ← minus
  let digits ← grouped Char.isDigit
  match Digits.value? digits with
  | some n => return if negative then -n else n
  | none => failure

/-- A float with a fraction or an exponent.  It may be too small for a 64-bit
float, also below the least negative one, but not too large. -/
def decimalFloat : Scanner Item := do
  let negative ← minus
  let whole ← wholeDigits
  let fraction ← opt (char '.' *> grouped Char.isDigit)
  let power ← opt exponent
  if fraction.isNone && power.isNone then failure
  let places := fraction.getD []
  match Digits.value? (whole ++ places) with
  | some digits =>
      let value :=
        Binary64.ofDecimal? ⟨negative, digits, power.getD 0 - places.length⟩
      if value.isSome || negative then return .float else failure
  | none => failure

/-- The floats that are no numbers. -/
def specialFloat : Scanner Item := do
  let _ ← minus
  word ['i', 'n', 'f'] <|> word ['n', 'a', 'n']
  return .float

/-- The scanner of a part of a timestamp, given what is left behind the part. -/
def field (rest? : List Char → Option (List Char)) : Scanner Unit := fun cs =>
  (rest? cs).map fun rest => ((), rest)

def timeOfDay : Scanner Unit := do
  field Timestamp.timeOfDay?
  let _ ← opt (field Timestamp.decimals?)

/-- A date, with a time and an offset or without; or a time alone. -/
def date : Scanner Item := do
  let offset := field (Timestamp.offset? fun c => c == '+' || c == '-')
  let time :=
    (satisfy fun c => c == 'T' || c == 't' || c == ' ') *> timeOfDay *>
      opt offset
  (do field Timestamp.date?; let _ ← opt time) <|> timeOfDay
  return .date

def boolean : Scanner Item :=
  (do word ['t', 'r', 'u', 'e']; return .boolean true) <|>
    (do word ['f', 'a', 'l', 's', 'e']; return .boolean false)

def scalar : Scanner Item :=
  string <|> boolean <|> date <|> decimalFloat <|> integer <|> specialFloat

/-- An array.  A comma may stand behind the last item. -/
def array (item : Scanner Item) : Scanner Item := do
  char '['
  let items ← opt (separated (gap *> item <* gap) (char ',') <* opt (char ','))
  gap
  char ']'
  return .array (items.getD [])

def assignment (item : Scanner Item) : Scanner Assignment := do
  let (path, key) ← dottedKey
  char '='
  blanks
  let item ← item
  return ⟨path, key, item⟩

/-- A table in braces, on one line and without a comma behind the last value. -/
def inlineTable (item : Scanner Item) : Scanner Item := do
  char '{'
  let body ← opt (separated (assignment item <* blanks) (char ','))
  blanks
  char '}'
  match Table.assignAll (body.getD []) .nil with
  | some table => return .table .inline table
  | none => failure

/-- A value in which at most `depth` arrays and tables nest. -/
def item : (depth : Nat) → Scanner Item
  | 0 => scalar
  | depth + 1 => array (item depth) <|> inlineTable (item depth) <|> scalar

inductive Line where
  | empty
  | assignment (a : Assignment)
  | header (path : List String) (key : String) (repeated : Bool)

def header : Scanner Line := do
  let (path, key) ← char '[' *> dottedKey <* char ']'
  return .header path key false

def repeatedHeader : Scanner Line := do
  let (path, key) ← word ['[', '['] *> dottedKey <* word [']', ']']
  return .header path key true

/-- A line, without its line break. -/
def line : Scanner Line := do
  blanks
  let content ← repeatedHeader <|> header <|>
      Line.assignment <$> assignment (item nestingLimit) <|> pure .empty
  blanks
  let _ ← opt comment
  return content

/-- Every line of a document, behind an optional byte order mark. -/
def lines : Scanner (List Line) := do
  let _ ← opt (char '\ufeff')
  separated line newline

/-- The document of some lines: what stands in front of the first header, and
then header by header. -/
def Document.ofLines : List Line → Document
  | [] => ⟨[], []⟩
  | .empty :: rest => ofLines rest
  | .assignment a :: rest =>
      let d := ofLines rest
      { d with preamble := a :: d.preamble }
  | .header path key repeated :: rest =>
      let d := ofLines rest
      ⟨[], ⟨path, key, repeated, d.preamble⟩ :: d.sections⟩

/-- The table that a text describes. -/
def Table.ofText? (text : String) : Option Table := do
  (Document.ofLines (← read? lines text)).table?

end SchemaForms.Toml
