/-!
Scanners: readers that take something from the front of a text and leave the
rest, or fail.
-/

namespace SchemaForms

/-- A scanner of things of type `α`. -/
abbrev Scanner := StateT (List Char) Option

namespace Scanner

variable {α β : Type}

def satisfy (p : Char → Bool) : Scanner Char
  | [] => none
  | c :: rest => if p c then some (c, rest) else none

def char (c : Char) : Scanner Unit := do
  let _ ← satisfy (· == c)

def word (text : List Char) : Scanner Unit := fun cs =>
  if text.isPrefixOf cs then some ((), cs.drop text.length) else none

/-- The longest run of characters of a class, which may be empty. -/
def run (p : Char → Bool) : Scanner (List Char) := fun cs =>
  some (cs.takeWhile p, cs.dropWhile p)

/-- What a scanner reads, if it does not fail; else nothing is taken. -/
def opt (item : Scanner α) : Scanner (Option α) := fun cs =>
  match item cs with
  | some (x, rest) => some (some x, rest)
  | none => some (none, cs)

/-- Fails where a scanner would succeed, and takes nothing. -/
def notBefore (item : Scanner α) : Scanner Unit := fun cs =>
  match item cs with
  | some _ => none
  | none => some ((), cs)

/-- Reads items one after the other until none follows.  An item that takes
nothing ends the run. -/
def many (item : Scanner α) : Scanner (List α) := fun cs =>
  match item cs with
  | some (x, rest) =>
      if rest.length < cs.length then
        match many item rest with
        | some (xs, rest) => some (x :: xs, rest)
        | none => none
      else some ([], cs)
  | none => some ([], cs)
termination_by cs => cs.length

/-- Reads one item at least, with a separator between two of them. -/
def separated (item : Scanner α) (separator : Scanner β) :
    Scanner (List α) := do
  let first ← item
  let rest ← many (separator *> item)
  return first :: rest

def atEnd : Scanner Unit
  | [] => some ((), [])
  | _ :: _ => none

/-- What a scanner reads in a whole text. -/
def read? (item : Scanner α) (text : String) : Option α :=
  (StateT.run (item <* atEnd) text.toList).map Prod.fst

end Scanner

end SchemaForms
