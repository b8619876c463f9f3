import SchemaForms.Proofs.Agenda
import SchemaForms.Report
/-!
The limit on violations.  A validation that may collect fewer violations does
the same steps up to the last violation that it may collect, and stops there:
its list is a prefix of the longer one, and a failure further on is not met
(`validate_take`, `validate_error_of_fewer`).
-/

namespace SchemaForms

namespace Agenda

variable {limits : Limits} {root : Schema} {a : Agenda} {found : List Violation}
  {reason : Option Halt} {depth errors more : Nat}

/-- What is found stays found. -/
theorem Ends.prefix_found (hends : Ends limits root a found reason) :
    a.found <+: found := by
  induction hends with
  | stop hstop =>
      cases hstop with
      | errorLimit hlimit => exact List.prefix_append _ _
      | _ => exact List.prefix_refl _
  | step hstep _ ih =>
      cases hstep with
      | report hlimit => exact (List.prefix_append _ _).trans ih
      | enter hdeep => exact ih

theorem errorsReached_eq_false_iff (hpos : 0 < errors) {count : Nat} :
    Limits.errorsReached ⟨depth, errors⟩ count = false ↔ count < errors := by
  simp [Limits.errorsReached, hpos]

theorem errorsReached_eq_true_iff (hpos : 0 < errors) {count : Nat} :
    Limits.errorsReached ⟨depth, errors⟩ count = true ↔ errors ≤ count := by
  simp [Limits.errorsReached, hpos]

/-- A validation that stops for the number of its violations has exactly as many
as it may collect. -/
theorem Ends.length_eq
    (hends : Ends ⟨depth, errors⟩ root a found (some .errorLimit))
    (hpos : 0 < errors) (hlt : a.found.length < errors) :
    found.length = errors := by
  generalize hreason : some Halt.errorLimit = reason at hends
  induction hends with
  | stop hstop =>
      cases hstop with
      | errorLimit hlimit =>
          have hle := (errorsReached_eq_true_iff hpos).1 hlimit
          simp only [List.length_append, List.length_singleton] at hlt ⊢
          omega
      | _ => cases hreason
  | step hstep _ ih =>
      cases hstep with
      | report hlimit =>
          have hlt' := (errorsReached_eq_false_iff hpos).1 hlimit
          exact ih (by simpa using hlt') hreason
      | enter hdeep => exact ih hlt hreason

/-- Another validation may collect more violations than `errors`, or any number
of them. -/
def LargerLimit (errors more : Nat) : Prop := errors < more ∨ more = 0

theorem LargerLimit.errorsReached_eq_false (hmore : LargerLimit errors more)
    {count : Nat} (hle : count ≤ errors) :
    Limits.errorsReached ⟨depth, more⟩ count = false := by
  rcases hmore with hlt | rfl
  · exact (errorsReached_eq_false_iff (by omega)).2 (by omega)
  · simp [Limits.errorsReached]

/-- Where a validation may collect only so many violations, it stops with the
first of them. -/
theorem Ends.take (hends : Ends ⟨depth, more⟩ root a found reason)
    (hpos : 0 < errors) (hmore : LargerLimit errors more)
    (hlt : a.found.length < errors) :
    Ends ⟨depth, errors⟩ root a (found.take errors)
      (if found.length < errors then reason else some .errorLimit) := by
  induction hends with
  | stop hstop =>
      cases hstop with
      | done =>
          rw [List.take_of_length_le (Nat.le_of_lt hlt), if_pos hlt]
          exact .stop .done
      | errorLimit hlimit =>
          rw [hmore.errorsReached_eq_false hlt] at hlimit
          cases hlimit
      | depthExceeded hdeep =>
          rw [List.take_of_length_le (Nat.le_of_lt hlt), if_pos hlt]
          exact .stop (.depthExceeded hdeep)
      | unresolvedRef =>
          rw [List.take_of_length_le (Nat.le_of_lt hlt), if_pos hlt]
          exact .stop .unresolvedRef
  | @step a b found reason hstep hends ih =>
      cases hstep with
      | @report place todo before hlimit =>
          cases hlimit' :
            Limits.errorsReached ⟨depth, errors⟩ (before.length + 1) with
          | false =>
              refine .step (.report hlimit') (ih ?_)
              simpa using (errorsReached_eq_false_iff hpos).1 hlimit'
          | true =>
              -- This violation is the last one that may be collected.
              have hlength : (before ++ [place.violation]).length = errors := by
                have hle := (errorsReached_eq_true_iff hpos).1 hlimit'
                simp only [List.length_append, List.length_singleton]
                simp only at hlt
                omega
              have hprefix := hends.prefix_found
              have htake : found.take errors = before ++ [place.violation] := by
                rw [← hlength]
                exact (List.prefix_iff_eq_take.1 hprefix).symm
              rw [htake, if_neg (Nat.not_lt.2 (hlength ▸ hprefix.length_le))]
              exact .stop (.errorLimit hlimit')
      | enter hdeep => exact .step (.enter hdeep) (ih hlt)

/-- A validation that does not stop for the number of its violations would not
do so either if it might collect more. -/
theorem Ends.of_fewer (hends : Ends ⟨depth, errors⟩ root a found reason)
    (hpos : 0 < errors) (hmore : LargerLimit errors more)
    (hreason : reason ≠ some .errorLimit) :
    Ends ⟨depth, more⟩ root a found reason := by
  induction hends with
  | stop hstop =>
      cases hstop with
      | done => exact .stop .done
      | errorLimit hlimit => exact absurd rfl hreason
      | depthExceeded hdeep => exact .stop (.depthExceeded hdeep)
      | unresolvedRef => exact .stop .unresolvedRef
  | step hstep _ ih =>
      cases hstep with
      | report hlimit =>
          have hlt := (errorsReached_eq_false_iff hpos).1 hlimit
          exact .step (.report
            (hmore.errorsReached_eq_false (Nat.le_of_lt hlt))) (ih hreason)
      | enter hdeep => exact .step (.enter hdeep) (ih hreason)

end Agenda

section

variable {schema : Schema} {value : Json} {depth errors more : Nat}

/-- A validation that may collect fewer violations has the first of them. -/
theorem validate_take (hpos : 0 < errors)
    (hmore : Agenda.LargerLimit errors more) {found : List Violation}
    (hvalid : validate ⟨depth, more⟩ schema value = .ok found) :
    validate ⟨depth, errors⟩ schema value = .ok (found.take errors) := by
  obtain ⟨reason, hends, hreason⟩ := Agenda.validate_eq_ok_iff.1 hvalid
  refine Agenda.validate_eq_ok_iff.2 ⟨_, hends.take hpos hmore hpos, ?_⟩
  split
  · exact hreason
  · exact .inr rfl

/-- A validation that may collect fewer violations fails in the same way, or
stops before. -/
theorem validate_error_or_length_eq (hpos : 0 < errors)
    (hmore : Agenda.LargerLimit errors more) {failure : ValidationFailure}
    (hfailed : validate ⟨depth, more⟩ schema value = .error failure) :
    validate ⟨depth, errors⟩ schema value = .error failure ∨
      ∃ found, validate ⟨depth, errors⟩ schema value = .ok found ∧
        found.length = errors := by
  by_cases hendless : validate ⟨depth, errors⟩ schema value = .error .endless
  · left
    rw [hendless]
    by_contra hne
    have hreturns : validate ⟨depth, more⟩ schema value ≠ .error .endless :=
      fun h =>
        hne (h.symm.trans hfailed)
    obtain ⟨found, reason, hends, -⟩ := Agenda.ends_of_validate hreturns
    exact Agenda.validate_eq_endless_iff.1 hendless _ _
      (hends.take hpos hmore hpos)
  · obtain ⟨found, reason, hends, hresult⟩ := Agenda.ends_of_validate hendless
    by_cases hreason : reason = some .errorLimit
    · subst hreason
      exact .inr ⟨found, hresult, hends.length_eq hpos hpos⟩
    · left
      rw [Agenda.validate_of_ends (hends.of_fewer hpos hmore hreason)]
        at hfailed
      rw [hresult, ← hfailed]
      rcases reason with _ | halt
      · rfl
      · cases halt <;> rfl

/-- A failure stays a failure where more violations may be collected. -/
theorem validate_error_of_fewer (hpos : 0 < errors)
    (hmore : Agenda.LargerLimit errors more) {failure : ValidationFailure}
    (hfailed : validate ⟨depth, errors⟩ schema value = .error failure) :
    validate ⟨depth, more⟩ schema value = .error failure := by
  cases hresult : validate ⟨depth, more⟩ schema value with
  | ok found =>
      rw [validate_take hpos hmore hresult] at hfailed
      cases hfailed
  | error other =>
      rcases validate_error_or_length_eq hpos hmore hresult with
        hother | ⟨found, hfound, -⟩
      · rw [← hother, hfailed]
      · rw [hfound] at hfailed
        cases hfailed

end

namespace Report

variable {found : List Violation} {depth errors : Nat}

/-- The first violations tell whether there are any. -/
theorem valid_take (hpos : 0 < errors) :
    (ofViolations ⟨depth, errors⟩ (found.take errors)).valid =
      (ofViolations ⟨depth, 0⟩ found).valid := by
  change (found.take errors).isEmpty = found.isEmpty
  cases found with
  | nil => rw [List.take_nil]
  | cons v rest => simp [Nat.ne_of_gt hpos]

theorem truncated_take_iff (hpos : 0 < errors) :
    (ofViolations ⟨depth, errors⟩ (found.take errors)).truncated = true ↔
      errors ≤ found.length := by
  rw [ofViolations, Agenda.errorsReached_eq_true_iff hpos, List.length_take]
  omega

/-- Where violations may be missing, there are some. -/
theorem not_valid_of_truncated_take (hpos : 0 < errors)
    (htruncated : (ofViolations ⟨depth, errors⟩ (found.take errors)).truncated =
      true) :
    (ofViolations ⟨depth, errors⟩ (found.take errors)).valid = false := by
  have hle := (truncated_take_iff hpos).1 htruncated
  rw [valid_take hpos, ofViolations, List.isEmpty_eq_false_iff]
  exact List.ne_nil_of_length_pos (Nat.lt_of_lt_of_le hpos hle)

/-- A report that is not truncated holds every violation. -/
theorem errors_take (hpos : 0 < errors)
    (htruncated : (ofViolations ⟨depth, errors⟩ (found.take errors)).truncated =
      false) :
    (ofViolations ⟨depth, errors⟩ (found.take errors)).errors = found := by
  have hlt : found.length < errors := by
    apply Nat.lt_of_not_le
    intro hle
    rw [(truncated_take_iff hpos).2 hle] at htruncated
    cases htruncated
  exact List.take_of_length_le (Nat.le_of_lt hlt)

end Report

/-- The limit on violations cuts the list of a validation without that limit
off, and does nothing else; and a report tells whether that may have
happened. -/
theorem validate_maxErrors (schema : Schema) (value : Json) (depth : Nat) :
    (∀ errors, 0 < errors →
      (∀ found, validate ⟨depth, 0⟩ schema value = .ok found →
        validate ⟨depth, errors⟩ schema value = .ok (found.take errors)) ∧
      ∀ failure, validate ⟨depth, 0⟩ schema value = .error failure →
        validate ⟨depth, errors⟩ schema value = .error failure ∨
          ∃ found, validate ⟨depth, errors⟩ schema value = .ok found ∧
            found.length = errors) ∧
    (∀ errors more, 0 < errors → errors < more →
      (∀ found, validate ⟨depth, more⟩ schema value = .ok found →
        validate ⟨depth, errors⟩ schema value = .ok (found.take errors)) ∧
      ∀ failure, validate ⟨depth, errors⟩ schema value = .error failure →
        validate ⟨depth, more⟩ schema value = .error failure) ∧
    ∀ found, validate ⟨depth, 0⟩ schema value = .ok found → ∀ errors,
      0 < errors →
      ∃ limited, validate ⟨depth, errors⟩ schema value = .ok limited ∧
        (Report.ofViolations ⟨depth, errors⟩ limited).valid =
          (Report.ofViolations ⟨depth, 0⟩ found).valid ∧
        ((Report.ofViolations ⟨depth, errors⟩ limited).truncated = true ↔
          errors ≤ found.length) ∧
        ((Report.ofViolations ⟨depth, errors⟩ limited).truncated = true →
          (Report.ofViolations ⟨depth, errors⟩ limited).valid = false) ∧
        ((Report.ofViolations ⟨depth, errors⟩ limited).truncated = false →
          (Report.ofViolations ⟨depth, errors⟩ limited).errors = found) := by
  refine ⟨?_, ?_, ?_⟩
  · intro errors hpos
    exact ⟨fun found hvalid => validate_take hpos (.inr rfl) hvalid,
      fun failure hfailed =>
        validate_error_or_length_eq hpos (.inr rfl) hfailed⟩
  · intro errors more hpos hlt
    exact ⟨fun found hvalid => validate_take hpos (.inl hlt) hvalid,
      fun failure hfailed => validate_error_of_fewer hpos (.inl hlt) hfailed⟩
  · intro found hvalid errors hpos
    exact ⟨found.take errors, validate_take hpos (.inr rfl) hvalid,
      Report.valid_take hpos, Report.truncated_take_iff hpos,
      Report.not_valid_of_truncated_take hpos,
      Report.errors_take hpos⟩

/-- Of the four violations of the tree, three are collected, or one; and where
the limit on nested refs ends the validation behind the first one, the failure
shows only if more than that may be collected. -/
theorem validate_maxErrors_labelledTree :
    validate ⟨0, 3⟩ labelledTree mislabelledTree =
      .ok (mislabelledTreeViolations.take 3) ∧
      validate ⟨0, 1⟩ labelledTree mislabelledTree =
        .ok (mislabelledTreeViolations.take 1) ∧
      (∃ found, validate ⟨2, 1⟩ labelledTree mislabelledTree = .ok found ∧
        found.length = 1) ∧
      validate ⟨2, 4⟩ labelledTree mislabelledTree =
        .error (.maxDepthExceeded 2) ∧
      ∃ limited, validate ⟨0, 4⟩ labelledTree mislabelledTree = .ok limited ∧
        (Report.ofViolations ⟨0, 4⟩ limited).truncated = true ∧
        (Report.ofViolations ⟨0, 4⟩ limited).valid = false := by
  have hunlimited : validate ⟨0, 0⟩ labelledTree mislabelledTree =
      .ok mislabelledTreeViolations :=
    rfl
  obtain ⟨hcut, hless, hreport⟩ :=
    validate_maxErrors labelledTree mislabelledTree 0
  obtain ⟨hcut', hless', -⟩ := validate_maxErrors labelledTree mislabelledTree 2
  have hthree := (hcut 3 (by decide)).1 mislabelledTreeViolations hunlimited
  have hone := (hless 1 3 (by decide) (by decide)).1 _ hthree
  have hstopped := (hcut' 1 (by decide)).2 (.maxDepthExceeded 2) rfl
  have hfailed :=
    (hless' 3 4 (by decide) (by decide)).2 (.maxDepthExceeded 2) rfl
  obtain ⟨limited, hlimited, -, htruncated, hinvalid, -⟩ :=
    hreport mislabelledTreeViolations hunlimited 4 (by decide)
  have htruncated' := htruncated.2 (by decide)
  refine ⟨hthree, hone, ?_, hfailed, limited, hlimited, htruncated',
    hinvalid htruncated'⟩
  rcases hstopped with hfailed | hstopped
  · cases hfailed.symm.trans
      (rfl : _ = Except.ok (mislabelledTreeViolations.take 1))
  · exact hstopped

end SchemaForms
