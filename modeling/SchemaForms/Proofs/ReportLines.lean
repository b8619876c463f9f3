import SchemaForms.Proofs.CompactText
import SchemaForms.Proofs.InstanceRuns
import SchemaForms.Proofs.ReportReading
/-!
Report lines are read back.  A run over instances prints one line for each
instance that it comes to and that does not fail, and the line is a JSON object
from which the path of the instance and its report are read again, whatever
characters are in them (`tells_reportText`).  No line has a line break in it; so
what a run has printed can be split into lines, and tells all of its reports
(`run_lines_read_back`).
-/

namespace SchemaForms.Command

variable {files : Files} {request : ValidateRequest} {session : Session}
  {path : String} {report : Report}

/-- The reports on some instances, up to the first one that fails, each with the
path of its instance. -/
inductive Reported (files : Files) (session : Session) :
    List String → List (String × Report) → Prop where
  | done : Reported files session [] []
  | stopped {path : String} {rest : List String} {failure : Failure}
      (hreports : Reports files session path (.error failure)) :
      Reported files session (path :: rest) []
  | report {path : String} {rest : List String} {report : Report}
      {reported : List (String × Report)}
      (hreports : Reports files session path (.ok report))
      (hrest : Reported files session rest reported) :
      Reported files session (path :: rest) ((path, report) :: reported)

/-- The reports of a run, which has none if it fails before the first
instance. -/
inductive ValidateRequest.Reported (files : Files) (request : ValidateRequest) :
    List (String × Report) → Prop where
  | unprepared {failure : Failure}
      (hprepares : Prepares files request (.error failure)) :
      Reported files request []
  | instances {session : Session} {reported : List (String × Report)}
      (hprepares : Prepares files request (.ok session))
      (hreported : Command.Reported files session request.instances reported) :
      Reported files request reported

theorem exists_reported (hchecked : session.schema.issues = []) (files : Files)
    (paths : List String) :
    ∃ reported, Reported files session paths reported := by
  induction paths with
  | nil => exact ⟨[], .done⟩
  | cons path rest ih =>
      obtain ⟨result, hreports⟩ := exists_reports hchecked files path
      obtain ⟨reported, hrest⟩ := ih
      cases result with
      | error failure => exact ⟨[], .stopped hreports⟩
      | ok report => exact ⟨(path, report) :: reported, .report hreports hrest⟩

theorem ValidateRequest.exists_reported (files : Files)
    (request : ValidateRequest) :
    ∃ reported, request.Reported files reported := by
  obtain ⟨result, hprepares⟩ := exists_prepares files request
  cases result with
  | error failure => exact ⟨[], .unprepared hprepares⟩
  | ok session =>
      obtain ⟨reported, hreported⟩ :=
        Command.exists_reported hprepares.issues_eq_nil files request.instances
      exact ⟨reported, .instances hprepares hreported⟩

def reportTree (path : String) (report : Report) : Json.Tree :=
  .obj (("instance", .str path) :: report.members)

/-- A report line without its line break. -/
def reportText (path : String) (report : Report) : String :=
  (reportTree path report).compact

theorem newline_not_mem_reportText (path : String) (report : Report) :
    '\n' ∉ (reportText path report).toList :=
  Json.Tree.newline_not_mem_compact _

theorem numberless_pathTree (path : List String) :
    (Violation.pathTree path).Numberless := by
  apply Json.Tree.Numberless.arr
  intro item hitem
  obtain ⟨step, -, rfl⟩ := List.mem_map.mp hitem
  exact .str

theorem numberless_reportTree (path : String) (report : Report) :
    (reportTree path report).Numberless := by
  have herrors :
      (Json.Tree.arr (report.errors.map Violation.tree)).Numberless := by
    apply Json.Tree.Numberless.arr
    intro item hitem
    obtain ⟨v, -, rfl⟩ := List.mem_map.mp hitem
    apply Json.Tree.Numberless.obj
    simp [numberless_pathTree]
  apply Json.Tree.Numberless.obj
  simp [Report.members, herrors, Json.Tree.Numberless.str,
    Json.Tree.Numberless.bool]

theorem nests_pathTree (path : List String) (n : Nat) :
    (Violation.pathTree path).Nests (n + 1) := by
  apply Json.Tree.Nests.arr
  intro item hitem
  obtain ⟨step, -, rfl⟩ := List.mem_map.mp hitem
  exact .str

/-- The object, its array of violations, their objects and the paths in them
nest in each other. -/
theorem nests_reportTree (path : String) (report : Report) :
    (reportTree path report).Nests 4 := by
  have herrors :
      (Json.Tree.arr (report.errors.map Violation.tree)).Nests 3 := by
    apply Json.Tree.Nests.arr
    intro item hitem
    obtain ⟨v, -, rfl⟩ := List.mem_map.mp hitem
    apply Json.Tree.Nests.obj
    simp [nests_pathTree]
  apply Json.Tree.Nests.obj
  simp [Report.members, herrors, Json.Tree.Nests.str, Json.Tree.Nests.bool]

/-- The value of a report line is read from its text. -/
theorem ofText?_reportText (path : String) (report : Report) :
    Json.ofText? Json.nestingLimit (reportText path report) =
      some (reportTree path report).value := by
  have hnests :=
    (nests_reportTree path report).mono (n := Json.nestingLimit) (by decide)
  rw [Json.ofText?, reportText,
    Json.Tree.ofText?_compact (numberless_reportTree path report) hnests,
    Option.map_some]

/-- A text tells the path of an instance and the report on it: it is an object
in which the path stands, and from which the report is read. -/
def Tells (text : String) (path : String) (report : Report) : Prop :=
  ∃ members, Json.ofText? Json.nestingLimit text = some (.obj members) ∧
    members.get? "instance" = some (.str path) ∧
      Report.ofJson? (.obj members) = some report

theorem tells_reportText (path : String) (report : Report) :
    Tells (reportText path report) path report := by
  refine ⟨_, ofText?_reportText path report, ?_,
    Report.ofJson?_of_members [("instance", .str path)] report⟩
  rw [Json.Tree.memberValues_eq_map, KeyMap.get?_ofList]
  simp [Report.members, List.lookup_cons, Json.Tree.value]

/-- The lines of a text, each of which is ended by a line break. -/
def linesOf (text : String) : List String :=
  (text.toList.splitOn '\n').dropLast.map String.ofList

theorem linesOf_cons {line : String} (hline : '\n' ∉ line.toList)
    (text : String) :
    linesOf (line ++ "\n" ++ text) = line :: linesOf text := by
  have htext : (line ++ "\n" ++ text).toList = line.toList ++ '\n' ::
      text.toList := by simp
  have hrest : text.toList.splitOn '\n' ≠ [] := List.splitOn_ne_nil _ _
  rw [linesOf, htext, List.splitOn_append_cons_self,
    List.splitOn_eq_singleton hline, List.singleton_append,
    List.dropLast_cons_of_ne_nil hrest, List.map_cons, String.ofList_toList]
  rfl

theorem linesOf_join {lines : List String}
    (hlines : ∀ line ∈ lines, '\n' ∉ line.toList) :
    linesOf (String.join (lines.map (· ++ "\n"))) = lines := by
  induction lines with
  | nil => rfl
  | cons line rest ih =>
      have hrest := ih fun other hother =>
        hlines other (List.mem_cons_of_mem _ hother)
      have hjoin : String.join ((line :: rest).map (· ++ "\n")) =
          line ++ "\n" ++ String.join (rest.map (· ++ "\n")) := by simp
      rw [hjoin, linesOf_cons (hlines line List.mem_cons_self), hrest]

def readLine? (line : String) : Option (String × Report) :=
  match Json.ofText? Json.nestingLimit line with
  | some (.obj members) =>
      match members.get? "instance" with
      | some (.str path) => (Report.ofJson? (.obj members)).map (path, ·)
      | _ => none
  | _ => none

theorem Tells.readLine?_eq {text : String} (htells : Tells text path report) :
    readLine? text = some (path, report) := by
  obtain ⟨members, htext, hpath, hreport⟩ := htells
  simp only [readLine?, htext, hpath, hreport, Option.map_some]

def reportTexts (reported : List (String × Report)) : List String :=
  reported.map fun (path, report) => reportText path report

theorem newline_not_mem_reportTexts (reported : List (String × Report)) :
    ∀ line ∈ reportTexts reported, '\n' ∉ line.toList := by
  intro line hline
  obtain ⟨⟨path, report⟩, -, rfl⟩ := List.mem_map.mp hline
  exact newline_not_mem_reportText path report

theorem Reported.stdout_eq {paths : List String}
    {reported : List (String × Report)}
    (hreported : Reported files session paths reported) :
    (runInstances files session paths).stdout =
      String.join ((reportTexts reported).map (· ++ "\n")) := by
  induction hreported with
  | done => rfl
  | stopped hreports =>
      rw [runInstances_of_error hreports.eq]
      rfl
  | report hreports hrest ih =>
      rw [runInstances_of_report hreports.eq, ih]
      simp [reportTexts, reportLine, reportText, reportTree]

theorem ValidateRequest.Reported.stdout_eq {reported : List (String × Report)}
    (hreported : request.Reported files reported) :
    (runValidate files request).stdout =
      String.join ((reportTexts reported).map (· ++ "\n")) := by
  cases hreported with
  | unprepared hprepares =>
      rw [runValidate_eq, hprepares.eq]
      rfl
  | instances hprepares hreported =>
      rw [runValidate_eq, hprepares.eq]
      exact hreported.stdout_eq

/-- What a run over instances has printed tells its reports, one a line: each
line reads as an object with the path of the instance, and as the report on it.
There are no other line breaks than those behind the lines; so the text is split
into these lines, and the paths and reports are read from them. -/
theorem run_lines_read_back {arguments : List String}
    (hread : Invocation.ofArguments? arguments = some (.validate request))
    (files : Files) :
    (∃ reported, request.Reported files reported) ∧
      ∀ reported, request.Reported files reported → ∃ lines : List String,
        (run files arguments).stdout = String.join (lines.map (· ++ "\n")) ∧
        (∀ line ∈ lines, '\n' ∉ line.toList) ∧
        List.Forall₂ (fun line entry => Tells line entry.1 entry.2)
          lines reported ∧
        linesOf (run files arguments).stdout = lines ∧
        (linesOf (run files arguments).stdout).map readLine? =
          reported.map some := by
  refine ⟨request.exists_reported files, ?_⟩
  intro reported hreported
  have hstdout : (run files arguments).stdout =
      String.join ((reportTexts reported).map (· ++ "\n")) := by
    rw [run_eq_runValidate hread]
    exact hreported.stdout_eq
  have hlines := newline_not_mem_reportTexts reported
  have hsplit : linesOf (run files arguments).stdout =
      reportTexts reported := by
    rw [hstdout, linesOf_join hlines]
  refine ⟨reportTexts reported, hstdout, hlines, ?_, hsplit, ?_⟩
  · rw [reportTexts, List.forall₂_map_left_iff, List.forall₂_same]
    intro entry _
    exact tells_reportText entry.1 entry.2
  · rw [hsplit, reportTexts, List.map_map]
    apply List.map_congr_left
    intro entry _
    exact (tells_reportText entry.1 entry.2).readLine?_eq

/-- The path of a file, with a quote, a backslash and a line break in it. -/
def oddPath : String := "a\"\\\n.json"

/-- A schema for objects whose members are strings, and in a file of an odd
name an object with a member of an odd key. -/
def oddFiles : Files := fun path =>
  ([("schema.json",
      File.text (braced (r#""values": "# ++ braced r#""type": "string""#))),
    (oddPath, .text (braced r#""\n\u0007": true"#))].lookup path).getD .missing

def oddReport : Report := ⟨false, false, [⟨["\n\x07"], ["values", "type"]⟩]⟩

/-- The odd file is told on one line.  A second instance that is not there adds
none. -/
theorem run_lines_read_back_oddFiles :
    Invocation.ofArguments? (stringRequest [oddPath, "b.json"]).commandLine =
        some (.validate (stringRequest [oddPath, "b.json"])) ∧
      (stringRequest [oddPath, "b.json"]).Reported oddFiles
        [(oddPath, oddReport)] ∧
      (run oddFiles (stringRequest [oddPath, "b.json"]).commandLine).stdout =
        braced
          (r#""instance":"a\"\\\n.json","valid":false,"truncated":false,"# ++
            r#""errors":["# ++
              braced (r#""instancePath":["\n\u0007"],"# ++
                r#""schemaPath":["values","type"]"#) ++ "]") ++ "\n" ∧
      (linesOf (run oddFiles
          (stringRequest [oddPath, "b.json"]).commandLine).stdout).map
          readLine? = [some (oddPath, oddReport)] := by
  have hread :=
    read_stringRequest (List.cons_ne_nil oddPath ["b.json"]) (by simp [oddPath])
  have hlines : linesOf
        (run oddFiles (stringRequest [oddPath, "b.json"]).commandLine).stdout =
      [reportText oddPath oddReport] := by decide +kernel
  have htold : readLine? (reportText oddPath oddReport) =
      some (oddPath, oddReport) :=
    (tells_reportText oddPath oddReport).readLine?_eq
  obtain ⟨⟨reported, hreported⟩, hall⟩ := run_lines_read_back hread oddFiles
  obtain ⟨lines, -, -, -, -, hrecovered⟩ := hall reported hreported
  rw [hlines, List.map_singleton, htold] at hrecovered
  have hmap : [(oddPath, oddReport)].map some = reported.map some := hrecovered
  have hsame : reported = [(oddPath, oddReport)] :=
    (List.map_injective_iff.mpr (Option.some_injective _) hmap).symm
  refine ⟨hread, hsame ▸ hreported, by decide +kernel, ?_⟩
  rw [hlines, List.map_singleton, htold]

end SchemaForms.Command
