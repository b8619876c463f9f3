import SchemaForms.Command.Files
import SchemaForms.Command.Invocation
import SchemaForms.Json.Reader
import SchemaForms.Report.Format
import SchemaForms.Session
import SchemaForms.Settings
/-!
Running a command over files.  A run prints something and ends with a verdict; a
failure ends it, and what was printed before stays.
-/

namespace SchemaForms.Command

/-- Why a run ends early. -/
inductive Failure where
  /-- The arguments are not understood. -/
  | usage
  | read (path : String)
  | json (path : String)
  | readSettings (path : String)
  | parseSettings (path : String)
  | construction (error : SchemaError)
  | issues (found : List SchemaIssue)
  | validation (failure : ValidationFailure)

namespace Failure

/-- The message of a failure.  What the file system, or a reader of JSON or
TOML, has to say about a file that it refuses would stand behind a colon at the
end; it is left out here. -/
def message : Failure → String
  | usage => "unknown arguments"
  | read path => "failed to read " ++ path
  | json path => "invalid json in " ++ path
  | readSettings path => "config error: failed to read " ++ path
  | parseSettings path => "config error: failed to parse " ++ path
  | construction e => e.message
  | issues found => SchemaIssue.message found
  | validation f => f.message

end Failure

/-- How a run ends. -/
inductive Verdict where
  /-- Everything is in order. -/
  | success
  /-- Some instance is not valid. -/
  | invalid
  | failed (failure : Failure)

namespace Verdict

def exitCode : Verdict → UInt32
  | success => 0
  | invalid => 1
  | failed _ => 2

/-- The verdict on one instance and on those behind it. -/
def afterReport (valid : Bool) : Verdict → Verdict
  | success => if valid then success else invalid
  | verdict => verdict

end Verdict

/-- What a run prints, and how it ends. -/
structure Outcome where
  stdout : String
  verdict : Verdict

namespace Outcome

def failure (f : Failure) : Outcome := ⟨"", .failed f⟩

def lines (text : String) : Outcome := ⟨text ++ "\n", .success⟩

/-- The run that goes on with the result of a step, if the step does not
fail. -/
def ofStep {α : Type} (step : Except Failure α) (next : α → Outcome) :
    Outcome :=
  match step with
  | .ok result => next result
  | .error f => failure f

end Outcome

def readJson (files : Files) (path : String) : Except Failure Json := do
  match (files path).text? with
  | none => throw (.read path)
  | some text =>
      match Json.ofText? Json.nestingLimit text with
      | some value => return value
      | none => throw (.json path)

/-- The schema in a file, which must not have an issue. -/
def readSchema (files : Files) (path : String) : Except Failure Schema := do
  let value ← readJson files path
  match Schema.ofJson? value with
  | .error error => throw (.construction error)
  | .ok schema =>
      match schema.check with
      | .error issues => throw (.issues issues)
      | .ok () => return schema

/-- The settings file that is read, if it is there, when no other is named. -/
def defaultSettings : String := "./typedef.toml"

def readSettings (files : Files) (path : String) : Except Failure Limits := do
  match (files path).text? with
  | none => throw (.readSettings path)
  | some text =>
      match Settings.limitsOfText? text with
      | some limits => return limits
      | none => throw (.parseSettings path)

/-- The limits in force: each one as the arguments give it, else as the settings
file does. -/
def readLimits (files : Files) (request : ValidateRequest) :
    Except Failure Limits := do
  let settings ← match request.config with
    | some path => readSettings files path
    | none =>
        if (files defaultSettings).isThere then
          readSettings files defaultSettings
        else pure .unlimited
  return ⟨request.maxDepth.getD settings.maxDepth,
    request.maxErrors.getD settings.maxErrors⟩

def reportOn (files : Files) (session : Session) (path : String) :
    Except Failure Report := do
  let value ← readJson files path
  match session.validate value with
  | .ok report => return report
  | .error failure => throw (.validation failure)

def reportLine (path : String) (report : Report) : String :=
  (Json.Tree.obj (("instance", .str path) :: report.members)).compact ++ "\n"

/-- Reports on the instances in some files, one after the other, up to the first
failure. -/
def runInstances (files : Files) (session : Session) : List String → Outcome
  | [] => ⟨"", .success⟩
  | path :: rest =>
      .ofStep (reportOn files session path) fun report =>
        let others := runInstances files session rest
        ⟨reportLine path report ++ others.stdout,
          others.verdict.afterReport report.valid⟩

def runValidate (files : Files) (request : ValidateRequest) : Outcome :=
  .ofStep (readLimits files request) fun limits =>
    .ofStep (readSchema files request.schema) fun schema =>
      runInstances files ⟨schema, limits⟩ request.instances

def runCheck (files : Files) (path : String) (print : Bool) : Outcome :=
  .ofStep (readSchema files path) fun schema =>
    .lines (if print then (Json.Tree.ofJson schema.toJson).pretty
      else "schema ok: " ++ path)

def usage : String :=
  "Usage: typedef [--log-json] <COMMAND>\n\n" ++
  "Commands:\n" ++
  "  check [--print] <SCHEMA>\n" ++
  "  validate --schema <SCHEMA> [--max-depth <N>] [--max-errors <N>] " ++
    "[--config <PATH>] <INSTANCE>...\n" ++
  "  report-schema"

def Invocation.run (files : Files) : Invocation → Outcome
  | .check path print => runCheck files path print
  | .validate request => runValidate files request
  | .reportSchema => .lines Report.format.pretty
  | .help => .lines usage
  | .version => .lines "typedef 0.1.0"

/-- The files that a command may look at. -/
def Invocation.paths : Invocation → List String
  | .check path _ => [path]
  | .validate request =>
      request.config.getD defaultSettings :: request.schema :: request.instances
  | _ => []

def run (files : Files) (arguments : List String) : Outcome :=
  match Invocation.ofArguments? arguments with
  | some invocation => invocation.run files
  | none => .failure .usage

end SchemaForms.Command
