import SchemaForms.Proofs.CheckedRun
/-!
The stages of a run.  `Settles`, `Parses`, `Loads`, `Prepares` and `Reports` say
stage by stage what comes out of the files, with a rule for every failure.  Each
stage comes to one result whatever the files hold, and it is the result that the
program comes to (`prepares_iff`, `reports_iff`).
-/

namespace SchemaForms.Command

variable {files : Files} {request : ValidateRequest} {session : Session}
  {path : String}

/-- The settings file that counts: the one that is named, or the one of the
default name if it is there. -/
inductive ValidateRequest.SettingsFile (files : Files)
    (request : ValidateRequest) : String → Prop where
  | named {path : String} (hconfig : request.config = some path) :
      SettingsFile files request path
  | default (hconfig : request.config = none)
      (hthere : (files defaultSettings).isThere = true) :
      SettingsFile files request defaultSettings

/-- The limits in force: each one by itself is that of the arguments, be it
zero, or else that of the settings file, or else zero. -/
inductive Settles (files : Files) (request : ValidateRequest) :
    Except Failure Limits → Prop where
  | unreadable {path : String} (hpath : request.SettingsFile files path)
      (hfile : (files path).text? = none) :
      Settles files request (.error (.readSettings path))
  | unparsed {path text : String} (hpath : request.SettingsFile files path)
      (htext : (files path).text? = some text)
      (hlimits : Settings.limitsOfText? text = none) :
      Settles files request (.error (.parseSettings path))
  | file {path text : String} {settings : Limits}
      (hpath : request.SettingsFile files path)
      (htext : (files path).text? = some text)
      (hlimits : Settings.limitsOfText? text = some settings) :
      Settles files request
        (.ok ⟨request.maxDepth.getD settings.maxDepth,
          request.maxErrors.getD settings.maxErrors⟩)
  | noFile (hpath : ∀ path, ¬ request.SettingsFile files path) :
      Settles files request
        (.ok ⟨request.maxDepth.getD 0, request.maxErrors.getD 0⟩)

inductive Parses (files : Files) (path : String) :
    Except Failure Json → Prop where
  | unreadable (hfile : (files path).text? = none) :
      Parses files path (.error (.read path))
  | notJson {text : String} (htext : (files path).text? = some text)
      (hvalue : Json.ofText? Json.nestingLimit text = none) :
      Parses files path (.error (.json path))
  | value {text : String} {value : Json}
      (htext : (files path).text? = some text)
      (hvalue : Json.ofText? Json.nestingLimit text = some value) :
      Parses files path (.ok value)

/-- The schema in a file: it is read, constructed and checked. -/
inductive Loads (files : Files) (path : String) :
    Except Failure Schema → Prop where
  | noValue {failure : Failure} (hparses : Parses files path (.error failure)) :
      Loads files path (.error failure)
  | construction {value : Json} {error : SchemaError}
      (hparses : Parses files path (.ok value))
      (hschema : Schema.ofJson? value = .error error) :
      Loads files path (.error (.construction error))
  | issues {value : Json} {schema : Schema} {found : List SchemaIssue}
      (hparses : Parses files path (.ok value))
      (hschema : Schema.ofJson? value = .ok schema)
      (hcheck : schema.check = .error found) :
      Loads files path (.error (.issues found))
  | schema {value : Json} {schema : Schema}
      (hparses : Parses files path (.ok value))
      (hschema : Schema.ofJson? value = .ok schema)
      (hcheck : schema.check = .ok ()) :
      Loads files path (.ok schema)

/-- What is there before the first instance: the settings come before the
schema. -/
inductive Prepares (files : Files) (request : ValidateRequest) :
    Except Failure Session → Prop where
  | noLimits {failure : Failure}
      (hsettles : Settles files request (.error failure)) :
      Prepares files request (.error failure)
  | noSchema {limits : Limits} {failure : Failure}
      (hsettles : Settles files request (.ok limits))
      (hloads : Loads files request.schema (.error failure)) :
      Prepares files request (.error failure)
  | session {limits : Limits} {schema : Schema}
      (hsettles : Settles files request (.ok limits))
      (hloads : Loads files request.schema (.ok schema)) :
      Prepares files request (.ok ⟨schema, limits⟩)

/-- The report on the instance in a file.  A validation that goes on for ever
has none either. -/
inductive Reports (files : Files) (session : Session) (path : String) :
    Except Failure Report → Prop where
  | noValue {failure : Failure} (hparses : Parses files path (.error failure)) :
      Reports files session path (.error failure)
  | tooDeep {value : Json} (hparses : Parses files path (.ok value))
      (hvalidate : validate session.limits session.schema value =
        .error (.maxDepthExceeded session.limits.maxDepth)) :
      Reports files session path
        (.error (.validation (.maxDepthExceeded session.limits.maxDepth)))
  | endless {value : Json} (hparses : Parses files path (.ok value))
      (hvalidate : validate session.limits session.schema value =
        .error .endless) :
      Reports files session path (.error (.validation .endless))
  | report {value : Json} {found : List Violation}
      (hparses : Parses files path (.ok value))
      (hvalidate : validate session.limits session.schema value = .ok found) :
      Reports files session path (.ok (.ofViolations session.limits found))

theorem Parses.eq {result : Except Failure Json}
    (hparses : Parses files path result) :
    readJson files path = result := by
  cases hparses with
  | unreadable hfile => simp only [readJson, hfile]; rfl
  | notJson htext hvalue => simp only [readJson, htext, hvalue]; rfl
  | value htext hvalue => simp only [readJson, htext, hvalue]; rfl

theorem exists_parses (files : Files) (path : String) : ∃ result,
    Parses files path result := by
  cases htext : (files path).text? with
  | none => exact ⟨_, .unreadable htext⟩
  | some text =>
      cases hvalue : Json.ofText? Json.nestingLimit text with
      | none => exact ⟨_, .notJson htext hvalue⟩
      | some value => exact ⟨_, .value htext hvalue⟩

theorem Loads.eq {result : Except Failure Schema}
    (hloads : Loads files path result) :
    readSchema files path = result := by
  cases hloads with
  | noValue hparses => simp only [readSchema, hparses.eq]; rfl
  | construction hparses hschema =>
      simp only [readSchema, hparses.eq, bind, Except.bind, hschema]
      rfl
  | issues hparses hschema hcheck =>
      simp only [readSchema, hparses.eq, bind, Except.bind, hschema, hcheck]
      rfl
  | schema hparses hschema hcheck =>
      simp only [readSchema, hparses.eq, bind, Except.bind, hschema, hcheck]
      rfl

theorem exists_loads (files : Files) (path : String) : ∃ result,
    Loads files path result := by
  obtain ⟨parsed, hparses⟩ := exists_parses files path
  cases parsed with
  | error failure => exact ⟨_, .noValue hparses⟩
  | ok value =>
      cases hschema : Schema.ofJson? value with
      | error error => exact ⟨_, .construction hparses hschema⟩
      | ok schema =>
          cases hcheck : schema.check with
          | error found => exact ⟨_, .issues hparses hschema hcheck⟩
          | ok => exact ⟨_, .schema hparses hschema hcheck⟩

theorem ValidateRequest.SettingsFile.readLimits_eq
    (hpath : request.SettingsFile files path) :
    readLimits files request = do
      let settings ← readSettings files path
      return ⟨request.maxDepth.getD settings.maxDepth,
        request.maxErrors.getD settings.maxErrors⟩ := by
  cases hpath with
  | named hconfig => simp only [readLimits, hconfig]
  | default hconfig hthere => simp only [readLimits, hconfig, hthere, if_true]

theorem Settles.eq {result : Except Failure Limits}
    (hsettles : Settles files request result) :
    readLimits files request = result := by
  cases hsettles with
  | unreadable hpath hfile =>
      rw [hpath.readLimits_eq]
      simp only [readSettings, hfile]
      rfl
  | unparsed hpath htext hlimits =>
      rw [hpath.readLimits_eq]
      simp only [readSettings, htext, hlimits]
      rfl
  | file hpath htext hlimits =>
      rw [hpath.readLimits_eq]
      simp only [readSettings, htext, hlimits]
      rfl
  | noFile hpath =>
      have hconfig : request.config = none := by
        cases hconfig : request.config with
        | none => rfl
        | some path => exact absurd (.named hconfig) (hpath path)
      have hthere : (files defaultSettings).isThere = false := by
        rw [← Bool.not_eq_true]
        exact fun hthere => hpath _ (.default hconfig hthere)
      simp only [readLimits, hconfig, hthere]
      rfl

theorem exists_settles (files : Files) (request : ValidateRequest) :
    ∃ result, Settles files request result := by
  by_cases hpath : ∃ path, request.SettingsFile files path
  · obtain ⟨path, hpath⟩ := hpath
    cases htext : (files path).text? with
    | none => exact ⟨_, .unreadable hpath htext⟩
    | some text =>
        cases hlimits : Settings.limitsOfText? text with
        | none => exact ⟨_, .unparsed hpath htext hlimits⟩
        | some settings => exact ⟨_, .file hpath htext hlimits⟩
  · exact ⟨_, .noFile fun path hfile => hpath ⟨path, hfile⟩⟩

def prepare (files : Files) (request : ValidateRequest) :
    Except Failure Session := do
  let limits ← readLimits files request
  let schema ← readSchema files request.schema
  return ⟨schema, limits⟩

theorem runValidate_eq (files : Files) (request : ValidateRequest) :
    runValidate files request = .ofStep (prepare files request) fun session =>
      runInstances files session request.instances := by
  rw [runValidate, prepare]
  cases readLimits files request with
  | error failure => rfl
  | ok limits => cases readSchema files request.schema <;> rfl

theorem Prepares.eq {result : Except Failure Session}
    (hprepares : Prepares files request result) :
    prepare files request = result := by
  cases hprepares with
  | noLimits hsettles => rw [prepare, hsettles.eq]; rfl
  | noSchema hsettles hloads => rw [prepare, hsettles.eq, hloads.eq]; rfl
  | session hsettles hloads => rw [prepare, hsettles.eq, hloads.eq]; rfl

theorem exists_prepares (files : Files) (request : ValidateRequest) :
    ∃ result, Prepares files request result := by
  obtain ⟨settled, hsettles⟩ := exists_settles files request
  cases settled with
  | error failure => exact ⟨_, .noLimits hsettles⟩
  | ok limits =>
      obtain ⟨loaded, hloads⟩ := exists_loads files request.schema
      cases loaded with
      | error failure => exact ⟨_, .noSchema hsettles hloads⟩
      | ok schema => exact ⟨_, .session hsettles hloads⟩

/-- A schema that a run comes to the instances with has been checked. -/
theorem Prepares.issues_eq_nil
    (hprepares : Prepares files request (.ok session)) :
    session.schema.issues = [] := by
  cases hprepares with
  | session hsettles hloads => exact issues_of_readSchema hloads.eq

theorem Reports.eq {result : Except Failure Report}
    (hreports : Reports files session path result) :
    reportOn files session path = result := by
  cases hreports with
  | noValue hparses => rw [reportOn, hparses.eq]; rfl
  | tooDeep hparses hvalidate =>
      simp only [reportOn, hparses.eq, Session.validate, hvalidate,
        bind, Except.bind]
      rfl
  | endless hparses hvalidate =>
      simp only [reportOn, hparses.eq, Session.validate, hvalidate,
        bind, Except.bind]
      rfl
  | report hparses hvalidate =>
      simp only [reportOn, hparses.eq, Session.validate, hvalidate,
        bind, Except.bind]
      rfl

/-- With a checked schema, a validation that fails does so at its limit of
depth, or goes on for ever. -/
theorem exists_reports (hchecked : session.schema.issues = []) (files : Files)
    (path : String) :
    ∃ result, Reports files session path result := by
  obtain ⟨parsed, hparses⟩ := exists_parses files path
  cases parsed with
  | error failure => exact ⟨_, .noValue hparses⟩
  | ok value =>
      cases hvalidate : validate session.limits session.schema value with
      | ok found => exact ⟨_, .report hparses hvalidate⟩
      | error failure =>
          cases failure with
          | maxDepthExceeded limit =>
              obtain rfl :=
                (Agenda.validate_eq_maxDepthExceeded_iff.1 hvalidate).1
              exact ⟨_, .tooDeep hparses hvalidate⟩
          | unresolvedRef name =>
              exact absurd hvalidate (validate_ne_unresolvedRef hchecked)
          | endless => exact ⟨_, .endless hparses hvalidate⟩

end SchemaForms.Command
