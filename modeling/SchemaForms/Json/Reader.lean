import SchemaForms.Json.Token
import SchemaForms.Json.Tree
/-!
Reading JSON texts.  The reader goes once over the tokens and keeps the
containers it is inside of on a stack; a text is refused when containers nest
deeper than a given limit.
-/

namespace SchemaForms.Json

namespace Tree

/-- A container that is not closed yet: what it holds so far, the last first,
and for an object the key whose value comes next. -/
inductive Frame where
  | array (done : List Tree)
  | object (done : List (String × Tree)) (key : String)

def ofToken? : Token → Option Tree
  | .null => some .null
  | .bool b => some (.bool b)
  | .num n => some (.num n)
  | .str s => some (.str s)
  | _ => none

mutual

/-- Reads on where a value has to come. -/
def readValue (limit : Nat) : List Token → List Frame → Option Tree
  | .openArray :: rest, stack =>
      if stack.length < limit then
        match rest with
        | .closeArray :: rest => readRest limit rest (.arr []) stack
        | rest => readValue limit rest (.array [] :: stack)
      else none
  | .openObject :: rest, stack =>
      if stack.length < limit then
        match rest with
        | .closeObject :: rest => readRest limit rest (.obj []) stack
        | .str key :: .colon :: rest =>
            readValue limit rest (.object [] key :: stack)
        | _ => none
      else none
  | token :: rest, stack =>
      match ofToken? token with
      | some t => readRest limit rest t stack
      | none => none
  | [], _ => none

def readRest (limit : Nat) : List Token → Tree → List Frame → Option Tree
  | [], t, [] => some t
  | .comma :: rest, t, .array done :: stack =>
      readValue limit rest (.array (t :: done) :: stack)
  | .closeArray :: rest, t, .array done :: stack =>
      readRest limit rest (.arr (t :: done).reverse) stack
  | .comma :: .str next :: .colon :: rest, t, .object done key :: stack =>
      readValue limit rest (.object ((key, t) :: done) next :: stack)
  | .closeObject :: rest, t, .object done key :: stack =>
      readRest limit rest (.obj ((key, t) :: done).reverse) stack
  | _, _, _ => none

end

/-- The document of a text in which at most `limit` containers nest. -/
def ofText? (limit : Nat) (text : String) : Option Tree := do
  let tokens ← Token.ofChars? text.toList
  readValue limit tokens []

end Tree

/-- How deep the containers of a file may nest. -/
def nestingLimit : Nat := 127

/-- The value of a text in which at most `limit` containers nest. -/
def ofText? (limit : Nat) (text : String) : Option Json :=
  (Tree.ofText? limit text).map Tree.value

end SchemaForms.Json
