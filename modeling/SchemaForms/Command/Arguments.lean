/-!
Reading the arguments of a command.  A command knows flags, options that take a
value, and plain arguments; they may be mixed, and behind `--` every argument is
plain.  Arguments are read from left to right, and the first one that the
command does not know ends the reading.
-/

namespace SchemaForms.Command

/-- An argument by its look. -/
inductive Argument where
  /-- `--`, behind which every argument is plain. -/
  | separator
  /-- Two hyphens and a name, perhaps with a value behind an equals sign. -/
  | long (name : String) (value : Option String)
  /-- A hyphen and a letter; more letters may follow. -/
  | short (letter : Char)
  | plain (text : String)
deriving DecidableEq

namespace Argument

/-- Tells what an argument is.  A lone hyphen is plain. -/
def ofString (text : String) : Argument :=
  match text.toList with
  | ['-', '-'] => separator
  | '-' :: '-' :: cs =>
      match cs.dropWhile (· != '=') with
      | [] => long (String.ofList cs) none
      | _ :: value =>
          long (String.ofList (cs.takeWhile (· != '=')))
            (some (String.ofList value))
  | '-' :: letter :: _ => short letter
  | _ => plain text

end Argument

/-- What a command knows. -/
structure Grammar where
  /-- The names of its flags. -/
  flags : List String
  /-- The names of its options, each with the values that it takes. -/
  options : List (String × (String → Bool))
  /-- The plain arguments that it takes, by their number so far. -/
  takesPlain : Nat → Bool

structure Given where
  flags : List String
  options : List (String × String)
  plain : List String

namespace Given

def nothing : Given := ⟨[], [], []⟩

def flag (g : Given) (name : String) : Bool :=
  g.flags.contains name

def option? (g : Given) (name : String) : Option String :=
  g.options.lookup name

/-- Adds a flag, which may be given once. -/
def addFlag (g : Given) (name : String) : Option Given :=
  if g.flag name then none else some { g with flags := g.flags ++ [name] }

/-- Adds an option, which may be given once. -/
def addOption (g : Given) (name value : String) : Option Given :=
  if (g.option? name).isSome then none
  else some { g with options := g.options ++ [(name, value)] }

end Given

inductive Parsed where
  | given (g : Given)
  /-- The arguments ask for help. -/
  | help
  /-- The command does not know the arguments. -/
  | refused

namespace Parsed

def andThen (g : Option Given) (next : Given → Parsed) : Parsed :=
  match g with
  | some g => next g
  | none => refused

end Parsed

namespace Grammar

/-- Adds an option with a value that it takes. -/
def addOption (grammar : Grammar) (g : Given) (name value : String) :
    Option Given :=
  match grammar.options.lookup name with
  | some takes => if takes value then g.addOption name value else none
  | none => none

/-- Adds a plain argument, which may not be empty. -/
def addPlain (grammar : Grammar) (g : Given) (text : String) : Option Given :=
  if grammar.takesPlain g.plain.length && !text.isEmpty then
    some { g with plain := g.plain ++ [text] }
  else none

def readPlain (grammar : Grammar) : List String → Given → Parsed
  | [], g => .given g
  | text :: rest, g =>
      .andThen (grammar.addPlain g text) (readPlain grammar rest)

/-- Reads arguments.  A value may stand in the argument of its option or in the
next one, which then has to look plain. -/
def read (grammar : Grammar) : List String → Given → Parsed
  | [], g => .given g
  | text :: rest, g =>
      match Argument.ofString text with
      | .separator => grammar.readPlain rest g
      | .short letter => if letter = 'h' then .help else .refused
      | .plain text => .andThen (grammar.addPlain g text) (read grammar rest)
      | .long name (some value) =>
          .andThen (grammar.addOption g name value) (read grammar rest)
      | .long name none =>
          if name = "help" then .help
          else if grammar.flags.contains name then
            .andThen (g.addFlag name) (read grammar rest)
          else
            match rest with
            | [] => .refused
            | value :: rest =>
                match Argument.ofString value with
                | .plain value =>
                    .andThen (grammar.addOption g name value)
                      (read grammar rest)
                | _ => .refused

end Grammar

end SchemaForms.Command
