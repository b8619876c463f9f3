import SchemaForms.Command.Arguments
import SchemaForms.Digits
/-!
The commands of the program and their arguments.
-/

namespace SchemaForms.Command

/-- What `validate` is asked to do. -/
structure ValidateRequest where
  schema : String
  instances : List String
  maxDepth : Option Nat
  maxErrors : Option Nat
  /-- The settings file. -/
  config : Option String

/-- What the program is asked to do. -/
inductive Invocation where
  /-- Check a schema, and print it in its normal form if asked to. -/
  | check (schema : String) (print : Bool)
  /-- Validate instances against a schema. -/
  | validate (request : ValidateRequest)
  /-- Print the format of reports. -/
  | reportSchema
  | help
  | version

namespace Invocation

/-- An unsigned 64-bit number, with a plus in front or without. -/
def limit? (text : String) : Option Nat := do
  let digits := match text.toList with
    | '+' :: cs => cs
    | cs => cs
  let n ← Digits.value? digits
  if n < UInt64.size then some n else none

/-- Any text but the empty one names a file. -/
def isPath (text : String) : Bool :=
  !text.isEmpty

def isLimit (text : String) : Bool :=
  (limit? text).isSome

/-- The flag that every command knows.  It concerns the log alone. -/
def logFlag : String := "log-json"

def checkGrammar : Grammar where
  flags := [logFlag, "print"]
  options := []
  takesPlain count := count = 0

def validateGrammar : Grammar where
  flags := [logFlag]
  options :=
    [("schema", isPath), ("max-depth", isLimit), ("max-errors", isLimit),
      ("config", isPath)]
  takesPlain _ := true

def reportSchemaGrammar : Grammar where
  flags := [logFlag]
  options := []
  takesPlain _ := false

def ofCheck? (g : Given) : Option Invocation :=
  g.plain.head?.map fun schema => check schema (g.flag "print")

def ofValidate? (g : Given) : Option Invocation := do
  let schema ← g.option? "schema"
  if g.plain.isEmpty then none
  else
    let maxDepth := (g.option? "max-depth").bind limit?
    let maxErrors := (g.option? "max-errors").bind limit?
    return validate ⟨schema, g.plain, maxDepth, maxErrors, g.option? "config"⟩

/-- The command that arguments read with a grammar ask for. -/
def ofParsed? (build : Given → Option Invocation) : Parsed → Option Invocation
  | .given g => build g
  | .help => some help
  | .refused => none

def ofName? (name : String) (arguments : List String) : Option Invocation :=
  match name with
  | "check" => ofParsed? ofCheck? (checkGrammar.read arguments .nothing)
  | "validate" =>
      ofParsed? ofValidate? (validateGrammar.read arguments .nothing)
  | "report-schema" =>
      ofParsed? (fun _ => some reportSchema)
        (reportSchemaGrammar.read arguments .nothing)
  | "help" =>
      match arguments with
      | [] => some help
      | [topic] =>
          if ["check", "validate", "report-schema", "help"].contains topic then
            some help
          else none
      | _ => none
  | _ => none

/-- Reads the arguments in front of the name of a command. -/
def ofRest? (logGiven : Bool) : List String → Option Invocation
  | [] => none
  | text :: rest =>
      match Argument.ofString text with
      | .plain name => ofName? name rest
      | .short letter =>
          if letter = 'h' then some help else if letter = 'V' then some version
          else none
      | .long name none =>
          if name = logFlag && !logGiven then ofRest? true rest
          else if name = "help" then some help
          else if name = "version" then some version
          else none
      | _ => none

/-- What the arguments of the program ask for, if the program knows them. -/
def ofArguments? (arguments : List String) : Option Invocation :=
  ofRest? false arguments

end Invocation

end SchemaForms.Command
