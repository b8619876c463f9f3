import SchemaForms.Proofs.InstanceRuns
import SchemaForms.Proofs.NormalForm
import SchemaForms.Proofs.PrettyText
/-!
Printed schemas.  The normal form of a document is no higher than the document
(`Json.height_normalizeAs_le`) and a schema is written without numbers
(`numberless_toJson`).  So what is printed of a schema that was read is read as
this schema again (`readSchema_printed`), and the printed file can stand in for
the one it was printed from.
-/

namespace SchemaForms

namespace Json

theorem height_normalizeMembers_le {members : KeyMap Json}
    {position? : String → Json → Option Position}
    (hmembers : ∀ key value, members.get? key = some value →
      ∀ position, (value.normalizeAs position).height ≤ value.height) :
    (obj (normalizeMembers position? members)).height ≤
      (obj members).height := by
  refine Nat.succ_le_succ (heightOfMembers_le_iff.2 ?_)
  intro key normal hnormal
  rw [get?_normalizeMembers, Option.bind_eq_some_iff] at hnormal
  obtain ⟨value, hvalue, hnormal⟩ := hnormal
  obtain ⟨position, -, rfl⟩ := Option.map_eq_some_iff.1 hnormal
  calc (value.normalizeAs position).height
      ≤ value.height := hmembers key value hvalue position
    _ ≤ heightOfMembers members :=
        heightOfMembers_le_iff.1 (Nat.le_refl _) key value hvalue

/-- The items of an array in another order are as high. -/
theorem height_arr_le_of_perm {items others : List Json}
    (hperm : items.Perm others) :
    (arr items).height ≤ (arr others).height := by
  refine Nat.succ_le_succ (heightOfItems_le_iff.2 fun item hitem => ?_)
  exact heightOfItems_le_iff.1 (Nat.le_refl _) item (hperm.mem_iff.1 hitem)

/-- A normal form nests no deeper than what it is the normal form of. -/
theorem height_normalizeAs_le (value : Json) (position : Position) :
    (value.normalizeAs position).height ≤ value.height := by
  induction value using heightInduction generalizing position with
  | step value ih =>
      rw [normalizeAs.eq_def]
      split
      case h_4 => exact height_arr_le_of_perm (List.perm_insertionSort _ _)
      case h_5 => exact Nat.le_refl _
      all_goals
        exact height_normalizeMembers_le fun _ _ hvalue =>
          ih _ (height_lt_obj hvalue)

end Json

open Json (Tree)

theorem numberless_obj {members : KeyMap Json}
    (hmembers : ∀ key value, members.get? key = some value →
      (Tree.ofJson value).Numberless) :
    (Tree.ofJson (.obj members)).Numberless :=
  .obj (Tree.forall_mem_ofMembers hmembers)

theorem numberless_object {entries : List (String × Json)}
    (hentries : ∀ entry ∈ entries, (Tree.ofJson entry.2).Numberless) :
    (Tree.ofJson (.object entries)).Numberless :=
  numberless_obj fun _ _ hvalue => hentries _ (KeyMap.mem_of_get?_ofList hvalue)

theorem numberless_strings (strings : List String) :
    (Tree.ofJson (.arr (strings.map .str))).Numberless := by
  refine .arr fun item hitem => ?_
  rw [Tree.ofItems_eq_map, List.map_map] at hitem
  obtain ⟨s, -, rfl⟩ := List.mem_map.1 hitem
  exact .str

mutual

/-- A schema is written without numbers. -/
theorem numberless_toJson : (s : Schema) → (Tree.ofJson s.toJson).Numberless
  | ⟨definitions, form⟩ => by
      rw [Schema.toJson]
      refine numberless_object
        (List.forall_mem_append.2 ⟨?_, numberless_members form⟩)
      exact numberless_optionalMember .definitions definitions

theorem numberless_members : (form : Form) → ∀ entry ∈ form.members,
    (Tree.ofJson entry.2).Numberless
  | .empty => List.forall_mem_nil _
  | .ref _ => List.forall_mem_singleton.2 .str
  | .type _ => List.forall_mem_singleton.2 .str
  | .enum values => List.forall_mem_singleton.2 (numberless_strings values.keys)
  | .elements schema => List.forall_mem_singleton.2 (numberless_toJson schema)
  | .properties required optional additional => by
      rw [Form.members]
      refine List.forall_mem_append.2 ⟨List.forall_mem_append.2 ⟨?_, ?_⟩, ?_⟩
      · exact numberless_optionalMember .properties required
      · exact numberless_optionalMember .optionalProperties optional
      · split
        · exact List.forall_mem_singleton.2 .bool
        · exact List.forall_mem_nil _
  | .values schema => List.forall_mem_singleton.2 (numberless_toJson schema)
  | .discriminator tag mapping => by
      rw [Form.members]
      refine List.forall_mem_singleton.2 (numberless_object ?_)
      refine List.forall_mem_cons.2 ⟨.str, List.forall_mem_singleton.2 ?_⟩
      exact numberless_obj (numberless_encodeEntries mapping)

theorem numberless_optionalMember (keyword : Keyword) :
    (schemas : Option (Entries Schema none)) →
    ∀ entry ∈ optionalMember keyword schemas, (Tree.ofJson entry.2).Numberless
  | none => by
      rw [optionalMember]
      exact List.forall_mem_nil _
  | some schemas => by
      rw [optionalMember]
      exact List.forall_mem_singleton.2
        (numberless_obj (numberless_encodeEntries schemas))

theorem numberless_encodeEntries : {lo : Option String} →
    (schemas : Entries Schema lo) →
    ∀ key value, (encodeEntries schemas).get? key = some value →
      (Tree.ofJson value).Numberless
  | _, .nil => by
      rw [encodeEntries]
      exact nofun
  | _, .cons name _ schema others => by
      intro key value hvalue
      rw [encodeEntries, Entries.get?_cons] at hvalue
      split at hvalue
      · cases hvalue
        exact numberless_toJson schema
      · exact numberless_encodeEntries others key value hvalue

end

namespace Command

variable {files files' : Files} {path printed : String} {schema : Schema}

/-- A schema that was read is written as the normal form of the value that it
was read from. -/
theorem exists_value_of_readSchema
    (hread : readSchema files path = .ok schema) :
    ∃ value, readJson files path = .ok value ∧ schema.toJson = value.normalize ∧
      value.height ≤ Json.nestingLimit := by
  obtain ⟨result, hloads⟩ := exists_loads files path
  cases hloads.eq.symm.trans hread
  cases hloads with
  | schema hparses hschema =>
      have hwritten :=
        normalize_of_describes schema (ofJson?_eq_ok_iff.1 hschema)
      refine ⟨_, hparses.eq, hwritten.symm, ?_⟩
      cases hparses with
      | value _ hvalue => exact Json.height_le_of_ofText? hvalue

/-- The text that is printed of a schema. -/
theorem runCheck_of_readSchema (hread : readSchema files path = .ok schema) :
    runCheck files path true = .lines (Tree.ofJson schema.toJson).pretty := by
  rw [runCheck, hread]
  rfl

/-- What is printed of a schema that was read is read as what the schema is
written as. -/
theorem ofText?_printed (hread : readSchema files path = .ok schema) :
    Json.ofText? Json.nestingLimit (runCheck files path true).stdout =
      some schema.toJson := by
  obtain ⟨value, -, hwritten, hlimit⟩ := exists_value_of_readSchema hread
  have hheight : schema.toJson.height ≤ Json.nestingLimit := by
    rw [hwritten]
    exact Nat.le_trans (Json.height_normalizeAs_le value .schema) hlimit
  rw [runCheck_of_readSchema hread, Outcome.lines]
  exact Json.ofText?_pretty (numberless_toJson schema) hheight
    (by simp [Json.Token.isBlank])

/-- A file with what is printed of a schema holds this schema. -/
theorem readSchema_printed (hread : readSchema files path = .ok schema)
    (hprinted : files' printed = .text (runCheck files path true).stdout) :
    readSchema files' printed = .ok schema := by
  have hcheck : schema.check = .ok () :=
    Schema.check_eq_ok_iff.2 (issues_of_readSchema hread)
  have hparses : Parses files' printed (.ok schema.toJson) := by
    refine .value ?_ (ofText?_printed hread)
    rw [hprinted, File.text?]
  exact (Loads.schema hparses (ofJson?_toJson schema) hcheck).eq

/-- A run that checks a schema and is a success has read it. -/
theorem exists_readSchema_of_runCheck {print : Bool}
    (hsuccess : (runCheck files path print).verdict.exitCode = 0) :
    ∃ schema, readSchema files path = .ok schema := by
  cases hread : readSchema files path with
  | ok schema => exact ⟨schema, rfl⟩
  | error failure =>
      rw [runCheck, hread, Outcome.exitCode_eq_zero_iff] at hsuccess
      cases hsuccess

theorem run_eq_runCheck {arguments : List String} {print : Bool}
    (hread : Invocation.ofArguments? arguments = some (.check path print)) :
    run files arguments = runCheck files path print := by
  rw [run, hread]
  rfl

/-- Any schema file can be named in a command line that has it printed. -/
theorem ofArguments?_print (hpath : path ≠ "") :
    Invocation.ofArguments? ["check", "--print", "--", path] =
      some (.check path true) := by
  have hname : Argument.ofString "check" = .plain "check" := by decide
  have hprint : Argument.ofString "--print" = .long "print" none := by decide
  have hempty : path.isEmpty = false := by simpa using hpath
  have hplain : Invocation.checkGrammar.read ["--", path] ⟨["print"], [], []⟩ =
      .given ⟨["print"], [], [path]⟩ := by
    simp [Grammar.read, Argument.ofString_separator, Grammar.readPlain,
      Grammar.addPlain, Invocation.checkGrammar, hempty, Parsed.andThen]
  have hread : Invocation.checkGrammar.read ["--print", "--", path] .nothing =
      .given ⟨["print"], [], [path]⟩ := by
    rw [← hplain, Grammar.read, hprint]
    rfl
  simp only [Invocation.ofArguments?, Invocation.ofRest?, hname,
    Invocation.ofName?]
  rw [hread]
  rfl

/-- The limits come out of the settings file alone. -/
theorem readLimits_congr {request : ValidateRequest}
    (hsettings : files' (request.config.getD defaultSettings) =
      files (request.config.getD defaultSettings)) :
    readLimits files' request = readLimits files request := by
  cases hconfig : request.config with
  | some path =>
      rw [hconfig, Option.getD_some] at hsettings
      simp only [readLimits, hconfig, readSettings, hsettings]
  | none =>
      rw [hconfig, Option.getD_none] at hsettings
      simp only [readLimits, hconfig, readSettings, hsettings]

/-- The reports come out of the files of the instances alone. -/
theorem runInstances_congr {session : Session} {paths : List String}
    (hfiles : ∀ path ∈ paths, files' path = files path) :
    runInstances files' session paths = runInstances files session paths := by
  induction paths with
  | nil => rfl
  | cons path rest ih =>
      have hreport :
          reportOn files' session path = reportOn files session path := by
        rw [reportOn, reportOn, readJson, readJson,
          hfiles path List.mem_cons_self]
      have hrest : runInstances files' session rest =
          runInstances files session rest :=
        ih fun other hother => hfiles other (List.mem_cons_of_mem _ hother)
      rw [runInstances, runInstances, hreport, hrest]

/-- Where two files hold the same schema, it does not matter which of them is
named. -/
theorem runValidate_congr {request : ValidateRequest}
    (hschema : readSchema files' printed = readSchema files path)
    (hfiles : ∀ name ∈ request.config.getD defaultSettings :: request.instances,
      files' name = files name) :
    runValidate files' { request with schema := printed } =
      runValidate files { request with schema := path } := by
  obtain ⟨hsettings, hinstances⟩ := List.forall_mem_cons.1 hfiles
  have hlimits : readLimits files' { request with schema := printed } =
      readLimits files { request with schema := path } := by
    have hsame : readLimits files' request = readLimits files request :=
      readLimits_congr hsettings
    exact hsame
  rw [runValidate, runValidate, hlimits, hschema]
  congr 1
  funext limits
  congr 1
  funext schema
  exact runInstances_congr hinstances

/-- What is printed of a schema can stand in for the file of the schema.  It is
the normal form of the value in the file, which nests no deeper than this value.
Wherever it is put, it is printed as it is, and an instance is validated against
it as it is against the file, whatever else the program is asked for. -/
theorem printed_schema_stands_in {files : Files} {arguments : List String}
    {path : String}
    (hcheck : Invocation.ofArguments? arguments = some (.check path true))
    (hsuccess : (run files arguments).verdict.exitCode = 0) :
    (∃ value, readJson files path = .ok value ∧
      value.normalize.height ≤ value.height ∧
      Json.ofText? Json.nestingLimit (run files arguments).stdout =
        some value.normalize) ∧
    ∀ (files' : Files) (printed : String),
      files' printed = .text (run files arguments).stdout →
      (∀ again, Invocation.ofArguments? again = some (.check printed true) →
        run files' again = run files arguments) ∧
      ∀ (request : ValidateRequest) (source target : List String),
        Invocation.ofArguments? source =
          some (.validate { request with schema := path }) →
        Invocation.ofArguments? target =
          some (.validate { request with schema := printed }) →
        (∀ name ∈ request.config.getD defaultSettings :: request.instances,
          files' name = files name) →
          run files' target = run files source := by
  rw [run_eq_runCheck hcheck] at hsuccess ⊢
  obtain ⟨schema, hread⟩ := exists_readSchema_of_runCheck hsuccess
  obtain ⟨value, hvalue, hwritten, -⟩ := exists_value_of_readSchema hread
  refine ⟨⟨value, hvalue, Json.height_normalizeAs_le value .schema, ?_⟩, ?_⟩
  · rw [ofText?_printed hread, hwritten]
  · intro files' printed hprinted
    have hread' : readSchema files' printed = .ok schema :=
      readSchema_printed hread hprinted
    refine ⟨?_, ?_⟩
    · intro again hagain
      rw [run_eq_runCheck hagain, runCheck_of_readSchema hread',
        runCheck_of_readSchema hread]
    · intro request source target hsource htarget hfiles
      rw [run_eq_runValidate hsource, run_eq_runValidate htarget]
      exact runValidate_congr (hread'.trans hread.symm) hfiles

/-- A schema for rows with one column, which has a quote and a line break in
its name.  The version says nothing. -/
def oddColumnText : String :=
  braced (r#""version": 2, "additionalProperties": false,"# ++ "\n" ++
    r#""properties": "# ++ braced (r#""\"a\u000a\"": "# ++
      braced r#""type": "string""#))

def printedColumnText : String :=
  braced ("\n  \"properties\": " ++
    braced ("\n    \"\\\"a\\n\\\"\": " ++
      braced "\n      \"type\": \"string\"\n    " ++ "\n  ") ++ "\n") ++ "\n"

/-- The schema, what is printed of it, and a row whose column has a number. -/
def columnFiles : Files := fun path =>
  ([("schema.json", File.text oddColumnText),
    ("printed.json", .text printedColumnText),
    ("row.json", .text (braced r#""\"a\n\"": 1"#))].lookup path).getD .missing

def rowRequest (schema : String) : ValidateRequest :=
  ⟨schema, ["row.json"], none, some 1, none⟩

theorem read_rowRequest {schema : String} (hschema : schema ≠ "") :
    Invocation.ofArguments? (rowRequest schema).commandLine =
      some (.validate (rowRequest schema)) := by
  apply Invocation.ofArguments?_commandLine
  refine ⟨hschema, nofun, nofun, ?_, by simp [rowRequest], by simp [rowRequest]⟩
  intro n hn
  cases hn
  decide

/-- The row is not valid, whichever of the two files is named. -/
theorem printed_schema_stands_in_oddColumn :
    (run columnFiles ["check", "--print", "--", "schema.json"]).stdout =
      printedColumnText ∧
      run columnFiles ["check", "--print", "--", "printed.json"] =
        run columnFiles ["check", "--print", "--", "schema.json"] ∧
      run columnFiles (rowRequest "printed.json").commandLine =
        run columnFiles (rowRequest "schema.json").commandLine ∧
      (run columnFiles
        (rowRequest "schema.json").commandLine).verdict.exitCode = 1 := by
  have hstdout :
      (run columnFiles ["check", "--print", "--", "schema.json"]).stdout =
      printedColumnText := by decide +kernel
  have hsuccess :
      (run columnFiles ["check", "--print", "--",
        "schema.json"]).verdict.exitCode = 0 := by
    decide +kernel
  have hfile : columnFiles "printed.json" =
      .text (run columnFiles ["check", "--print", "--",
        "schema.json"]).stdout := by
    rw [hstdout]
    rfl
  obtain ⟨-, hstands⟩ :=
    printed_schema_stands_in (ofArguments?_print (by decide)) hsuccess
  obtain ⟨hagain, hvalidate⟩ := hstands columnFiles "printed.json" hfile
  refine ⟨hstdout, hagain _ (ofArguments?_print (by decide)),
    ?_, by decide +kernel⟩
  exact hvalidate (rowRequest "") _ _ (read_rowRequest (by decide))
    (read_rowRequest (by decide)) fun _ _ => rfl

end Command

end SchemaForms
