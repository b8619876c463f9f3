import SchemaForms.Json.Number
/-!
The tokens of a JSON text: punctuation, strings, numbers and the three words.
Between tokens stand blanks, which are the space, the tab and the two line
breaks and nothing else.
-/

namespace SchemaForms.Json

inductive Token where
  | openArray
  | closeArray
  | openObject
  | closeObject
  | comma
  | colon
  | null
  | bool (value : Bool)
  | num (value : Number)
  | str (value : String)
deriving DecidableEq

namespace Token

def isBlank (c : Char) : Bool :=
  c == ' ' || c == '\t' || c == '\n' || c == '\r'

def punctuation? : Char → Option Token
  | '[' => some openArray
  | ']' => some closeArray
  | '{' => some openObject
  | '}' => some closeObject
  | ',' => some comma
  | ':' => some colon
  | _ => none

/-- Splits a text behind an opening quote at the closing one, which no backslash
escapes. -/
def splitQuoted : List Char → Option (List Char × List Char)
  | [] => none
  | '"' :: rest => some ([], rest)
  | '\\' :: c :: rest =>
      (splitQuoted rest).map fun (body, after) => ('\\' :: c :: body, after)
  | c :: rest => (splitQuoted rest).map fun (body, after) => (c :: body, after)

/-- What is left behind a string is shorter than the text it was in. -/
theorem length_of_splitQuoted {cs body after : List Char}
    (h : splitQuoted cs = some (body, after)) :
    after.length < cs.length := by
  fun_induction splitQuoted cs generalizing body with
  | case1 => simp at h
  | case2 rest =>
      cases h
      simp
  | case3 c rest ih =>
      obtain ⟨⟨inner, tail⟩, hinner, heq⟩ := Option.map_eq_some_iff.1 h
      cases heq
      have := ih hinner
      simp only [List.length_cons]
      omega
  | case4 c rest _ _ ih =>
      obtain ⟨⟨inner, tail⟩, hinner, heq⟩ := Option.map_eq_some_iff.1 h
      cases heq
      have := ih hinner
      simp only [List.length_cons]
      omega

/-- A piece of a string as it is written: a character, or a UTF-16 unit given by
its number. -/
inductive Piece where
  | char (c : Char)
  | unit (n : Nat)

def letterEscape? : Char → Option Char
  | '"' => some '"'
  | '\\' => some '\\'
  | '/' => some '/'
  | 'b' => some '\x08'
  | 'f' => some '\x0c'
  | 'n' => some '\n'
  | 'r' => some '\r'
  | 't' => some '\t'
  | _ => none

/-- The pieces between the quotes.  A control character has to be escaped. -/
def pieces? : List Char → Option (List Piece)
  | [] => some []
  | '\\' :: 'u' :: a :: b :: c :: d :: rest => do
      let n ← Digits.hexValue? [a, b, c, d]
      return .unit n :: (← pieces? rest)
  | '\\' :: e :: rest => do
      let c ← letterEscape? e
      return .char c :: (← pieces? rest)
  | c :: rest =>
      if c == '\\' || c.toNat < 0x20 then none
      else do return .char c :: (← pieces? rest)

def isHighSurrogate (n : Nat) : Bool :=
  0xD800 ≤ n && n < 0xDC00

def isLowSurrogate (n : Nat) : Bool :=
  0xDC00 ≤ n && n < 0xE000

/-- The characters that pieces spell: two surrogates in a row make one
character, and a surrogate alone makes none. -/
def spelled? : List Piece → Option (List Char)
  | [] => some []
  | .char c :: rest => (spelled? rest).map (c :: ·)
  | .unit high :: .unit low :: rest =>
      if isHighSurrogate high then
        if isLowSurrogate low then
          (spelled? rest).map
            (Char.ofNat (0x10000 + (high - 0xD800) * 0x400 + (low - 0xDC00)) ::
              ·)
        else none
      else if isLowSurrogate high then none
      else (spelled? (.unit low :: rest)).map (Char.ofNat high :: ·)
  | .unit n :: rest =>
      if isHighSurrogate n || isLowSurrogate n then none
      else (spelled? rest).map (Char.ofNat n :: ·)

/-- The string that the text between two quotes denotes. -/
def unquoted? (body : List Char) : Option String := do
  let pieces ← pieces? body
  return String.ofList (← spelled? pieces)

/-- The characters of the three words and of numerals. -/
def isWordChar (c : Char) : Bool :=
  c.isAlphanum || c == '+' || c == '-' || c == '.'

def word? : List Char → Option Token
  | ['n', 'u', 'l', 'l'] => some null
  | ['t', 'r', 'u', 'e'] => some (bool true)
  | ['f', 'a', 'l', 's', 'e'] => some (bool false)
  | cs => (Number.ofChars? cs).map num

def ofChars? (cs : List Char) : Option (List Token) :=
  match cs with
  | [] => some []
  | c :: rest =>
      if isBlank c then ofChars? rest
      else if c = '"' then
        match _found : splitQuoted rest with
        | none => none
        | some (body, after) => do
            let s ← unquoted? body
            return str s :: (← ofChars? after)
      else if isWordChar c then do
        let token ← word? (c :: rest.takeWhile isWordChar)
        return token :: (← ofChars? (rest.dropWhile isWordChar))
      else do
        let token ← punctuation? c
        return token :: (← ofChars? rest)
termination_by cs.length
decreasing_by
  · simp
  · have := length_of_splitQuoted _found
    simp only [List.length_cons]
    omega
  · have := (List.dropWhile_suffix (l := rest) isWordChar).length_le
    simp only [List.length_cons]
    omega
  · simp

end Token

end SchemaForms.Json
