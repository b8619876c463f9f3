import SchemaForms.Proofs.Agenda
import SchemaForms.Proofs.Breaches
/-!
What checking a schema rules out.  A validation comes only to nodes that the
checker walks over, so what it meets there has been checked; in particular a
validation that comes to a ref to nothing does so in a schema with an issue
(`exists_unknownRef`).
-/

namespace SchemaForms

variable {root schema : Schema} {value : Json} {limits : Limits} {name : String}

/-- A walked node of a checked schema breaks no rule. -/
theorem Schema.Walked.not_breaks {s : Schema} {path : SchemaPath}
    {issue : SchemaIssue} (hwalked : root.Walked path s)
    (hchecked : root.issues = []) : ¬ s.form.Breaks root path issue := by
  intro hbreaks
  have hissue := Schema.mem_issues_iff_breach.2 (.form hwalked hbreaks)
  rw [hchecked] at hissue
  cases hissue

/-- In a checked schema, no member is required and optional. -/
theorem Schema.Walked.not_optional {s : Schema} {path : SchemaPath}
    (hwalked : root.Walked path s) (hchecked : root.issues = [])
    {required optional : Option (KeyMap Schema)} {additional : Bool}
    (hform : s.form = .properties required optional additional) {key : String}
    (hrequired : declares required key = true) :
    ¬ declares optional key = true := by
  intro hoptional
  cases required with
  | none => cases hrequired
  | some required =>
      cases optional with
      | none => cases hoptional
      | some optional =>
          apply hwalked.not_breaks hchecked
          rw [hform]
          exact .overlappingProperties hrequired hoptional

/-- In a checked schema, a branch is a properties form that leaves the tag
alone. -/
theorem Schema.Walked.exists_properties {s branch : Schema} {path : SchemaPath}
    (hwalked : root.Walked path s) (hchecked : root.issues = [])
    {tag name : String} {mapping : KeyMap Schema}
    (hform : s.form = .discriminator tag mapping)
    (hname : mapping.get? name = some branch) :
    ∃ required optional additional,
      branch.form = .properties required optional additional ∧
      declares required tag = false ∧ declares optional tag = false := by
  by_contra hno
  by_cases hbranch : ∃ required optional additional,
      branch.form = .properties required optional additional
  · obtain ⟨required, optional, additional, hproperties⟩ := hbranch
    apply hwalked.not_breaks hchecked
    rw [hform]
    apply Form.Breaks.tagRedeclared hname hproperties
    by_contra htag
    simp only [not_or, Bool.not_eq_true] at htag
    exact hno ⟨required, optional, additional, hproperties, htag⟩
  · apply hwalked.not_breaks hchecked
    rw [hform]
    apply Form.Breaks.branchNotProperties hname
    intro required optional additional hproperties
    exact hbranch ⟨required, optional, additional, hproperties⟩

/-- A ref to nothing is an issue wherever the checker walks over it. -/
theorem Node.Meets.exists_unknownRef {n : Node}
    (hmeets : n.Meets root (.dangling name))
    (hwalked : root.Walked n.place.schemaPath n.schema) :
    ∃ issue ∈ root.issues, issue.fault = .unknownRef name := by
  cases hmeets with
  | dangling hform htarget =>
      have hbreaks : n.schema.form.Breaks root n.place.schemaPath
          ⟨n.place.schemaPath, .unknownRef name⟩ := hform ▸ .unknownRef htarget
      exact ⟨_, Schema.mem_issues_iff_breach.2 (.form hwalked hbreaks), rfl⟩

/-- A validation fails for a ref to nothing only if the checker finds that
ref. -/
theorem exists_unknownRef
    (hfailed : validate limits schema value = .error (.unresolvedRef name)) :
    ∃ issue ∈ schema.issues, issue.fault = .unknownRef name := by
  have hreturns : validate limits schema value ≠ .error .endless := by
    simp [hfailed]
  obtain ⟨found, reason, hends, hresult⟩ := Agenda.ends_of_validate hreturns
  have hreason :=
    Agenda.result_eq_unresolvedRef_iff.1 (hresult.symm.trans hfailed)
  subst hreason
  obtain ⟨a, hreach, hstop⟩ := hends.exists_stop
  cases hstop with
  | unresolvedRef =>
      rcases Agenda.Reaches.met hreach List.mem_cons_self with
        heq | ⟨n, hleads, hmeets⟩
      · cases heq
      · exact hmeets.exists_unknownRef (hleads.walked (.start schema))

theorem validate_ne_unresolvedRef (hchecked : schema.issues = []) :
    validate limits schema value ≠ .error (.unresolvedRef name) := by
  intro hfailed
  obtain ⟨issue, hissue, -⟩ := exists_unknownRef hfailed
  rw [hchecked] at hissue
  cases hissue

end SchemaForms
