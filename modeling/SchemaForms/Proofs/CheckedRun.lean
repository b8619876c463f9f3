import SchemaForms.Command.Run
import SchemaForms.Proofs.Checked
import SchemaForms.Proofs.Result
/-!
Refs to nothing in the runs of the program.  A run validates only against a
schema that it has checked (`exists_validate_of_run`), and such a schema has no
ref that leads to nothing.
-/

namespace SchemaForms.Command

variable {files : Files} {path : String} {f : ValidationFailure}
  {schema : Schema}

theorem readJson_ne_validation :
    readJson files path ≠ .error (.validation f) := by
  rw [readJson]
  split
  · nofun
  · split <;> nofun

theorem readSchema_ne_validation :
    readSchema files path ≠ .error (.validation f) := by
  intro hfailed
  rcases bind_eq_error_iff.1 hfailed with hjson | ⟨value, -, hschema⟩
  · exact readJson_ne_validation hjson
  · split at hschema
    · cases hschema
    · split at hschema <;> cases hschema

theorem readSettings_ne_validation :
    readSettings files path ≠ .error (.validation f) := by
  rw [readSettings]
  split
  · nofun
  · split <;> nofun

theorem readLimits_ne_validation {request : ValidateRequest} :
    readLimits files request ≠ .error (.validation f) := by
  have hsettings : ∀ path (limits : Limits → Limits),
      (readSettings files path >>= fun settings => pure (limits settings)) ≠
        .error (.validation f) := by
    intro path limits hfailed
    rcases bind_eq_error_iff.1 hfailed with hread | ⟨settings, -, hlimits⟩
    · exact readSettings_ne_validation hread
    · cases hlimits
  rw [readLimits]
  split
  · exact hsettings _ _
  · split
    · exact hsettings _ _
    · nofun

/-- A schema that was read has been checked. -/
theorem issues_of_readSchema (hread : readSchema files path = .ok schema) :
    schema.issues = [] := by
  obtain ⟨value, -, hschema⟩ := bind_eq_ok_iff.1 hread
  split at hschema
  · cases hschema
  · rename_i decoded _
    split at hschema
    · cases hschema
    · rename_i hcheck
      cases hschema
      exact Schema.check_eq_ok_iff.1 hcheck

theorem exists_validate_of_reportOn {session : Session}
    (hfailed : reportOn files session path = .error (.validation f)) :
    ∃ value, validate session.limits session.schema value = .error f := by
  rcases bind_eq_error_iff.1 hfailed with hjson | ⟨value, -, hreport⟩
  · exact absurd hjson readJson_ne_validation
  · split at hreport
    · cases hreport
    · rename_i hvalidate
      cases hreport
      rcases bind_eq_error_iff.1 hvalidate with
        hfailed | ⟨found, -, hofViolations⟩
      · exact ⟨value, hfailed⟩
      · cases hofViolations

/-- A run that starts with a step fails with it, or behind it. -/
theorem verdict_ofStep_eq_failed_iff {α : Type} {step : Except Failure α}
    {next : α → Outcome} {failure : Failure} :
    (Outcome.ofStep step next).verdict = .failed failure ↔
      step = .error failure ∨ ∃ result, step = .ok result ∧
        (next result).verdict = .failed failure := by
  cases step <;> simp [Outcome.ofStep, Outcome.failure]

theorem afterReport_eq_failed_iff {valid : Bool} {verdict : Verdict}
    {failure : Failure} :
    verdict.afterReport valid = .failed failure ↔
      verdict = .failed failure := by
  cases verdict <;> cases valid <;> simp [Verdict.afterReport]

theorem exists_validate_of_runInstances {session : Session}
    {paths : List String}
    (hfailed : (runInstances files session paths).verdict =
      .failed (.validation f)) :
    ∃ value, validate session.limits session.schema value = .error f := by
  induction paths with
  | nil => cases hfailed
  | cons path rest ih =>
      rw [runInstances, verdict_ofStep_eq_failed_iff] at hfailed
      rcases hfailed with hreport | ⟨report, -, hothers⟩
      · exact exists_validate_of_reportOn hreport
      · exact ih (afterReport_eq_failed_iff.1 hothers)

theorem runCheck_ne_validation {print : Bool} :
    (runCheck files path print).verdict ≠ .failed (.validation f) := by
  intro hfailed
  rcases verdict_ofStep_eq_failed_iff.1 hfailed with hread | ⟨schema, -, hlines⟩
  · exact readSchema_ne_validation hread
  · cases hlines

theorem exists_validate_of_runValidate {request : ValidateRequest}
    (hfailed : (runValidate files request).verdict = .failed (.validation f)) :
    ∃ limits schema value, schema.issues = [] ∧
      validate limits schema value = .error f := by
  rcases verdict_ofStep_eq_failed_iff.1 hfailed with
    hlimits | ⟨limits, -, hrest⟩
  · exact absurd hlimits readLimits_ne_validation
  · rcases verdict_ofStep_eq_failed_iff.1 hrest with
      hschema | ⟨schema, hread, hinstances⟩
    · exact absurd hschema readSchema_ne_validation
    · obtain ⟨value, hvalue⟩ := exists_validate_of_runInstances hinstances
      exact ⟨limits, schema, value, issues_of_readSchema hread, hvalue⟩

/-- A run that ends with the failure of a validation has validated against a
checked schema. -/
theorem exists_validate_of_run {arguments : List String}
    (hfailed : (run files arguments).verdict = .failed (.validation f)) :
    ∃ limits schema value, schema.issues = [] ∧
      validate limits schema value = .error f := by
  rw [run] at hfailed
  split at hfailed
  · rename_i invocation _
    cases invocation with
    | check path print => exact absurd hfailed runCheck_ne_validation
    | validate request => exact exists_validate_of_runValidate hfailed
    | reportSchema => cases hfailed
    | help => cases hfailed
    | version => cases hfailed
  · cases hfailed

/-- Checking rules out the refs to nothing: a validation fails for one only if
checking reports it, so it never does so with a checked schema, nor in a run of
the program. -/
theorem check_excludes_unresolvedRef :
    (∀ limits schema value name, validate limits schema value =
      .error (.unresolvedRef name) →
      ∃ issue ∈ schema.issues, issue.fault.code = "unknown_ref" ∧
        issue.fault.message = "ref '" ++ name ++
          "' does not name a root definition") ∧
    (∀ schema : Schema, schema.check = .ok () → ∀ limits value name,
      validate limits schema value ≠ .error (.unresolvedRef name)) ∧
    ∀ files arguments name,
      (run files arguments).verdict ≠
        .failed (.validation (.unresolvedRef name)) := by
  refine ⟨?_, ?_, ?_⟩
  · intro limits schema value name hfailed
    obtain ⟨issue, hissue, hfault⟩ := exists_unknownRef hfailed
    exact ⟨issue, hissue, by rw [hfault]; rfl, by rw [hfault]; rfl⟩
  · intro schema hcheck limits value name
    exact validate_ne_unresolvedRef (Schema.check_eq_ok_iff.1 hcheck)
  · intro files arguments name hfailed
    obtain ⟨limits, schema, value, hchecked, hvalidate⟩ :=
      exists_validate_of_run hfailed
    exact validate_ne_unresolvedRef hchecked hvalidate

/-- Trees of leaves, which are defined below the root only. -/
def strayLeaf : Schema :=
  ⟨some (KeyMap.ofList [("tree", ⟨some (KeyMap.ofList [("leaf", .empty)]),
    .elements (.ofForm (.ref "leaf"))⟩)]), .ref "tree"⟩

theorem check_excludes_unresolvedRef_trees :
    validate .unlimited strayLeaf (.arr [.null]) =
      .error (.unresolvedRef "leaf") ∧
      (∃ issue ∈ strayLeaf.issues, issue.fault.code = "unknown_ref" ∧
        issue.fault.message = "ref 'leaf' does not name a root definition") ∧
      labelledTree.check = .ok () ∧
      validate ⟨2, 1⟩ labelledTree mislabelledTree ≠
        .error (.unresolvedRef "tree") := by
  have hfailed : validate .unlimited strayLeaf (.arr [.null]) =
      .error (.unresolvedRef "leaf") := rfl
  have hchecked : labelledTree.check = .ok () := rfl
  obtain ⟨hreported, hchecked', -⟩ := check_excludes_unresolvedRef
  exact ⟨hfailed, hreported .unlimited strayLeaf (.arr [.null]) "leaf" hfailed,
    hchecked, hchecked' labelledTree hchecked ⟨2, 1⟩ mislabelledTree "tree"⟩

end SchemaForms.Command
