import SchemaForms.Proofs.Allowance
/-!
Validation step by step.  An agenda holds what is still to be visited and the
violations found so far; a step takes the first part off, and puts the parts of
a node in its place.  Unlike the visitors, the agenda needs no allowance:
`ends_of_validate` and `validate_of_ends` say that a validation has a result
exactly when the agenda comes to an end, and that the result is the one with
which it ends.
-/

namespace SchemaForms

/-- The state of a validation: what is to be visited, and the violations found
so far. -/
structure Agenda where
  todo : List Part
  found : List Violation

namespace Agenda

def start (schema : Schema) (value : Json) : Agenda :=
  ⟨[.node (.start schema value)], []⟩

inductive Step (limits : Limits) (root : Schema) : Agenda → Agenda → Prop where
  /-- A violation is collected. -/
  | report {place : Place} {todo : List Part} {found : List Violation}
      (hlimit : limits.errorsReached (found.length + 1) = false) :
      Step limits root ⟨.clash place :: todo, found⟩
        ⟨todo, found ++ [place.violation]⟩
  /-- A node is entered. -/
  | enter {n : Node} {todo : List Part} {found : List Violation}
      (hdeep : n.tooDeep limits = false) :
      Step limits root ⟨.node n :: todo, found⟩ ⟨n.parts root ++ todo, found⟩

/-- A validation stops here, with these violations and for this reason, which is
none when there is nothing left to visit. -/
inductive Stops (limits : Limits) : Agenda → List Violation → Option Halt →
    Prop where
  | done {found : List Violation} : Stops limits ⟨[], found⟩ found none
  | errorLimit {place : Place} {todo : List Part} {found : List Violation}
      (hlimit : limits.errorsReached (found.length + 1) = true) :
      Stops limits ⟨.clash place :: todo, found⟩ (found ++ [place.violation])
        (some .errorLimit)
  | depthExceeded {n : Node} {todo : List Part} {found : List Violation}
      (hdeep : n.tooDeep limits = true) :
      Stops limits ⟨.node n :: todo, found⟩ found (some .depthExceeded)
  | unresolvedRef {name : String} {todo : List Part} {found : List Violation} :
      Stops limits ⟨.dangling name :: todo, found⟩ found
        (some (.unresolvedRef name))

/-- The agendas that a validation comes to. -/
abbrev Reaches (limits : Limits) (root : Schema) : Agenda → Agenda → Prop :=
  Relation.ReflTransGen (Step limits root)

/-- A validation comes to an end, with these violations and for this reason. -/
inductive Ends (limits : Limits) (root : Schema) : Agenda → List Violation →
    Option Halt → Prop where
  | stop {a : Agenda} {found : List Violation} {reason : Option Halt}
      (hstop : Stops limits a found reason) : Ends limits root a found reason
  | step {a b : Agenda} {found : List Violation} {reason : Option Halt}
      (hstep : Step limits root a b) (hends : Ends limits root b found reason) :
      Ends limits root a found reason

variable {limits : Limits} {root : Schema} {a b c : Agenda}
  {found behind : List Violation} {reason reason' : Option Halt}

theorem Step.unique (hb : Step limits root a b) (hc : Step limits root a c) :
    b = c := by
  cases hb <;> cases hc <;> rfl

theorem Stops.not_step (hstop : Stops limits a found reason) :
    ¬ Step limits root a b := by
  intro hstep
  cases hstop with
  | done => cases hstep
  | errorLimit hlimit =>
      cases hstep with
      | report hlimit' => rw [hlimit] at hlimit'; cases hlimit'
  | depthExceeded hdeep =>
      cases hstep with
      | enter hdeep' => rw [hdeep] at hdeep'; cases hdeep'
  | unresolvedRef => cases hstep

theorem Stops.unique (hstop : Stops limits a found reason)
    (hstop' : Stops limits a behind reason') :
    found = behind ∧ reason = reason' := by
  cases hstop <;> cases hstop' <;> exact ⟨rfl, rfl⟩

theorem Stops.ne_endless (hstop : Stops limits a found reason) :
    reason ≠ some .endless := by
  cases hstop <;> simp

theorem Ends.ne_endless (hends : Ends limits root a found reason) :
    reason ≠ some .endless := by
  induction hends with
  | stop hstop => exact hstop.ne_endless
  | step _ _ ih => exact ih

theorem Ends.of_step (hstep : Step limits root a b)
    (hends : Ends limits root a found reason) :
    Ends limits root b found reason := by
  cases hends with
  | stop hstop => exact absurd hstep hstop.not_step
  | step hstep' hends => exact hstep.unique hstep' ▸ hends

theorem Reaches.ends (hreach : Reaches limits root a b)
    (hends : Ends limits root b found reason) :
    Ends limits root a found reason := by
  induction hreach using Relation.ReflTransGen.head_induction_on with
  | refl => exact hends
  | head hstep _ ih => exact .step hstep ih

theorem Ends.unique (hends : Ends limits root a found reason)
    (hends' : Ends limits root a behind reason') : found = behind ∧
      reason = reason' := by
  induction hends with
  | stop hstop =>
      cases hends' with
      | stop hstop' => exact hstop.unique hstop'
      | step hstep _ => exact absurd hstep hstop.not_step
  | step hstep _ ih => exact ih (hends'.of_step hstep)

theorem Ends.exists_stop (hends : Ends limits root a found reason) :
    ∃ b, Reaches limits root a b ∧ Stops limits b found reason := by
  induction hends with
  | stop hstop => exact ⟨_, .refl, hstop⟩
  | step hstep _ ih =>
      obtain ⟨b, hreach, hstop⟩ := ih
      exact ⟨b, .head hstep hreach, hstop⟩

/-- Whatever a validation has to visit, it has been led to. -/
theorem Reaches.met {s : Node} (hreach : Reaches limits root ⟨[.node s], []⟩ a)
    {part : Part} (hpart : part ∈ a.todo) : part = .node s ∨ ∃ n,
    Node.LeadsTo root s n ∧ n.Meets root part := by
  induction hreach generalizing part with
  | refl => exact .inl (List.mem_singleton.1 hpart)
  | tail _ hstep ih =>
      cases hstep with
      | report hlimit => exact ih (List.mem_cons_of_mem _ hpart)
      | @enter n todo found hdeep =>
          rcases List.mem_append.1 hpart with hpart | hpart
          · refine .inr ⟨n, ?_, Node.mem_parts_iff.1 hpart⟩
            rcases ih List.mem_cons_self with heq | ⟨m, hleads, hmeets⟩
            · cases heq
              exact .refl
            · exact .tail hleads hmeets
          · exact ih (List.mem_cons_of_mem _ hpart)

theorem Reaches.leadsTo {s n : Node}
    (hreach : Reaches limits root ⟨[.node s], []⟩ a)
    (hpart : .node n ∈ a.todo) : Node.LeadsTo root s n := by
  rcases hreach.met hpart with heq | ⟨m, hleads, hmeets⟩
  · cases heq
    exact .refl
  · exact .tail hleads hmeets

/-- The agenda does with some parts in front what a step from violations to
violations does. -/
def Performs (limits : Limits) (root : Schema) (step : Findings)
    (parts : List Part) : Prop :=
  ∀ found todo behind reason, step found = (behind, reason) →
    reason ≠ some .endless →
    match reason with
    | none => Reaches limits root ⟨parts ++ todo, found⟩ ⟨todo, behind⟩
    | some _ => Ends limits root ⟨parts ++ todo, found⟩ behind reason

theorem performs_each {step : Part → Findings} {parts : List Part}
    (hpart : ∀ part ∈ parts, Performs limits root (step part) [part]) :
    Performs limits root (Findings.each step parts) parts := by
  induction parts with
  | nil =>
      intro found todo behind reason hstep _
      cases hstep
      exact .refl
  | cons part rest ih =>
      intro found todo behind reason hstep hne
      rw [Findings.each_cons] at hstep
      have hfirst := hpart part List.mem_cons_self found (rest ++ todo)
      have hrest := ih fun other hother =>
        hpart other (List.mem_cons_of_mem part hother)
      rcases hrun : step part found with ⟨between, _ | halt⟩
      · rw [Findings.andThen_of_none hrun] at hstep
        have hreach := hfirst between none hrun (by simp)
        have hrest := hrest between todo behind reason hstep hne
        cases reason with
        | none => exact hreach.trans hrest
        | some halt => exact Reaches.ends hreach hrest
      · rw [Findings.andThen_of_some hrun] at hstep
        cases hstep
        exact hfirst behind (some halt) hrun hne

theorem performs_dangling (name : String) :
    Performs limits root (.halt (.unresolvedRef name)) [.dangling name] := by
  intro found todo behind reason hstep _
  cases hstep
  exact .stop .unresolvedRef

theorem performs_part {step : Node → Findings} {part : Part}
    (hnode : ∀ n, part = .node n → Performs limits root (step n) [part]) :
    Performs limits root (part.findings limits step) [part] := by
  cases part with
  | clash place =>
      intro found todo behind reason hstep _
      rw [Part.findings_clash, Findings.report] at hstep
      cases hstep
      cases hlimit : limits.errorsReached (found.length + 1) with
      | true => exact .stop (.errorLimit hlimit)
      | false => exact .single (.report hlimit)
  | dangling name => exact performs_dangling name
  | node n => exact hnode n rfl

/-- A node that is entered leaves its parts in its place. -/
theorem performs_enter {n : Node} {step : Findings}
    (hdeep : n.tooDeep limits = false)
    (hparts : Performs limits root step (n.parts root)) :
    Performs limits root step [.node n] := by
  intro found todo behind reason hstep hne
  have hrest := hparts found todo behind reason hstep hne
  cases reason with
  | none => exact .head (.enter hdeep) hrest
  | some halt => exact .step (.enter hdeep) hrest

theorem performs_tooDeep {n : Node} (hdeep : n.tooDeep limits = true) :
    Performs limits root (.halt .depthExceeded) [.node n] := by
  intro found todo behind reason hstep _
  cases hstep
  exact .stop (.depthExceeded hdeep)

theorem performs_findings (allowance : Nat) (n : Node) :
    Performs limits root (n.findings limits root allowance) [.node n] := by
  induction allowance, n using Node.allowance_induction root with
  | hparts allowance n hform ih =>
      cases hdeep : n.tooDeep limits with
      | true =>
          rw [Node.findings_of_tooDeep hdeep]
          exact performs_tooDeep hdeep
      | false =>
          rw [Node.findings_eq_each hform]
          apply performs_enter hdeep
          apply performs_each
          intro part hpart
          apply performs_part
          intro c hc
          subst hc
          exact ih c (Node.mem_parts_iff.1 hpart)
  | hzero n name hform =>
      cases hdeep : n.tooDeep limits with
      | true =>
          rw [Node.findings_of_tooDeep hdeep]
          exact performs_tooDeep hdeep
      | false =>
          cases htarget : root.definition? name with
          | none =>
              rw [Node.findings_dangling hform htarget hdeep]
              apply performs_enter hdeep
              rw [Node.parts_dangling hform htarget]
              exact performs_dangling name
          | some target =>
              intro found todo behind reason hstep hne
              rw [Node.findings_ref_zero hform hdeep, htarget] at hstep
              cases hstep
              exact absurd rfl hne
  | href allowance n name hform ih =>
      cases hdeep : n.tooDeep limits with
      | true =>
          rw [Node.findings_of_tooDeep hdeep]
          exact performs_tooDeep hdeep
      | false =>
          rw [Node.findings_ref hform hdeep]
          apply performs_enter hdeep
          apply performs_each
          intro part _
          apply performs_part
          intro c hc
          subst hc
          exact ih allowance (Nat.le_refl _) c

/-- A validation that ends does so with some allowance. -/
theorem exists_allowance (hends : Ends limits root a found reason) :
    ∃ allowance, Findings.each
      (Part.findings limits (Node.findings limits root allowance)) a.todo
      a.found = (found, reason) := by
  induction hends with
  | stop hstop =>
      refine ⟨0, ?_⟩
      cases hstop with
      | done => rfl
      | errorLimit hlimit =>
          exact Findings.andThen_of_some (by simp [Findings.report, hlimit])
      | depthExceeded hdeep =>
          exact Findings.andThen_of_some
            (by simp [Node.findings_of_tooDeep hdeep, Findings.halt])
      | unresolvedRef => exact Findings.andThen_of_some rfl
  | step hstep hends ih =>
      obtain ⟨allowance, hrun⟩ := ih
      cases hstep with
      | report hlimit =>
          refine ⟨allowance, ?_⟩
          exact (Findings.andThen_of_none
            (by simp [Findings.report, hlimit])).trans hrun
      | @enter n todo found hdeep =>
          rw [Findings.each_append] at hrun
          -- Only a ref takes from the allowance, but one more is enough for
          -- every node.
          refine ⟨allowance + 1, ?_⟩
          have hparts : Findings.Extends
              (n.findings limits root (allowance + 1))
              (Findings.each
                (Part.findings limits (Node.findings limits root allowance))
                (n.parts root)) := by
            by_cases hform : ∃ name, n.schema.form = .ref name
            · obtain ⟨name, hname⟩ := hform
              rw [Node.findings_ref hname hdeep]
              exact .refl _
            · rw [← Node.findings_eq_each fun name hname => hform ⟨name, hname⟩]
              exact Node.findings_succ_extends allowance n
          have htodo := Node.parts_extend limits root allowance todo
          have hall := hparts.andThen htodo
          exact (hall found (by rw [hrun]; exact hends.ne_endless)).trans hrun

/-- The result of a validation that stops with these violations and for this
reason. -/
def result (limits : Limits) (found : List Violation) :
    Option Halt → Except ValidationFailure (List Violation)
  | none | some .errorLimit => .ok found
  | some .depthExceeded => .error (.maxDepthExceeded limits.maxDepth)
  | some (.unresolvedRef name) => .error (.unresolvedRef name)
  | some .endless => .error .endless

theorem result_ne_endless (hne : reason ≠ some .endless) :
    result limits found reason ≠ .error .endless := by
  rcases reason with _ | halt
  · simp [result]
  · cases halt with
    | endless => exact absurd rfl hne
    | _ => simp [result]

/-- Only a failure at the limit on nested refs tells the limits. -/
theorem result_eq_of_ne_depthExceeded {limits' : Limits}
    (hne : reason ≠ some .depthExceeded) :
    result limits found reason = result limits' found reason := by
  rcases reason with _ | halt
  · rfl
  · cases halt with
    | depthExceeded => exact absurd rfl hne
    | _ => rfl

theorem validate_eq_result (limits : Limits) (schema : Schema) (value : Json) :
    validate limits schema value =
      result limits
        ((Node.start schema value).findings limits schema
          (allowance limits schema value) []).1
        ((Node.start schema value).findings limits schema
          (allowance limits schema value) []).2 := by
  rw [validate, Node.findings, Visit.findings]
  simp only [Node.start]
  rcases visitor limits schema (allowance limits schema value) schema value none
    ⟨.root, #[]⟩ with
      ⟨walk, _ | halt⟩
  · rfl
  · cases halt <;> rfl

/-- Each end of the agenda is an end of the visit with the allowance of a
validation. -/
theorem findings_of_ends {schema : Schema} {value : Json}
    (hends : Ends limits schema (start schema value) found reason) :
    (Node.start schema value).findings limits schema
        (allowance limits schema value) [] = (found, reason) := by
  obtain ⟨enough, hrun⟩ := exists_allowance hends
  rw [start, Findings.each_singleton, Part.findings_node] at hrun
  have hne : ((Node.start schema value).findings limits schema enough []).2 ≠
      some .endless := by
    rw [hrun]
    exact hends.ne_endless
  by_cases hlimit : limits.maxDepth = 0
  · rw [Node.findings_allowance hlimit hne, hrun]
  · rw [allowance, if_neg hlimit]
    -- The limit and `enough` may be either way round, but both are enough.
    have hne' : ((Node.start schema value).findings limits schema
          limits.maxDepth []).2 ≠
        some .endless :=
      Node.findings_ne_endless (Nat.pos_of_ne_zero hlimit) _ _
        (Nat.le_add_left _ _) []
    rcases Nat.le_total enough limits.maxDepth with hle | hle
    · rw [Node.findings_extends hle _ [] hne, hrun]
    · rw [← Node.findings_extends hle _ [] hne', hrun]

/-- A validation whose agenda comes to an end has the result of that end. -/
theorem validate_of_ends {schema : Schema} {value : Json}
    (hends : Ends limits schema (start schema value) found reason) :
    validate limits schema value = result limits found reason := by
  rw [validate_eq_result, findings_of_ends hends]

/-- The agenda of a validation that is not endless comes to an end. -/
theorem ends_of_validate {schema : Schema} {value : Json}
    (hreturns : validate limits schema value ≠ .error .endless) :
    ∃ found reason, Ends limits schema (start schema value) found reason ∧
      validate limits schema value = result limits found reason := by
  rw [validate_eq_result] at hreturns ⊢
  rcases hrun : (Node.start schema value).findings limits schema
    (allowance limits schema value) []
    with ⟨found, reason⟩
  rw [hrun] at hreturns
  have hne : reason ≠ some .endless := fun h => hreturns (by rw [h]; rfl)
  have hperforms := performs_findings _ _ [] [] found reason hrun hne
  refine ⟨found, reason, ?_, rfl⟩
  cases reason with
  | none => exact Reaches.ends hperforms (.stop .done)
  | some halt => exact hperforms

/-- A validation is endless exactly when its agenda never comes to an end. -/
theorem validate_eq_endless_iff {schema : Schema} {value : Json} :
    validate limits schema value = .error .endless ↔
      ∀ found reason,
        ¬ Ends limits schema (start schema value) found reason := by
  constructor
  · intro hendless found reason hends
    rw [validate_of_ends hends] at hendless
    exact result_ne_endless hends.ne_endless hendless
  · intro hnever
    by_contra hreturns
    obtain ⟨found, reason, hends, -⟩ := ends_of_validate hreturns
    exact hnever found reason hends

theorem result_eq_ok_iff :
    result limits found reason = .ok behind ↔
      found = behind ∧ (reason = none ∨ reason = some .errorLimit) := by
  rcases reason with _ | halt
  · simp [result]
  · cases halt <;> simp [result]

/-- A list of violations is the result when the agenda ends without a
failure. -/
theorem validate_eq_ok_iff {schema : Schema} {value : Json} :
    validate limits schema value = .ok found ↔
      ∃ reason, Ends limits schema (start schema value) found reason ∧
        (reason = none ∨ reason = some .errorLimit) := by
  constructor
  · intro hvalid
    have hreturns : validate limits schema value ≠ .error .endless := by
      simp [hvalid]
    obtain ⟨found', reason, hends, hresult⟩ := ends_of_validate hreturns
    obtain ⟨rfl, hreason⟩ := result_eq_ok_iff.1 (hresult.symm.trans hvalid)
    exact ⟨reason, hends, hreason⟩
  · rintro ⟨reason, hends, hreason⟩
    exact (validate_of_ends hends).trans (result_eq_ok_iff.2 ⟨rfl, hreason⟩)

theorem result_eq_maxDepthExceeded_iff {depth : Nat} :
    result limits found reason = .error (.maxDepthExceeded depth) ↔
      depth = limits.maxDepth ∧ reason = some .depthExceeded := by
  rcases reason with _ | halt
  · simp [result]
  · cases halt <;> simp [result, eq_comm]

theorem result_eq_unresolvedRef_iff {name : String} :
    result limits found reason = .error (.unresolvedRef name) ↔
      reason = some (.unresolvedRef name) := by
  rcases reason with _ | halt
  · simp [result]
  · cases halt <;> simp [result]

theorem validate_eq_maxDepthExceeded_iff {schema : Schema} {value : Json}
    {depth : Nat} :
    validate limits schema value = .error (.maxDepthExceeded depth) ↔
      depth = limits.maxDepth ∧
        ∃ found, Ends limits schema (start schema value) found
          (some .depthExceeded) := by
  constructor
  · intro hfailed
    have hreturns : validate limits schema value ≠ .error .endless := by
      simp [hfailed]
    obtain ⟨found, reason, hends, hresult⟩ := ends_of_validate hreturns
    obtain ⟨hdepth, rfl⟩ :=
      result_eq_maxDepthExceeded_iff.1 (hresult.symm.trans hfailed)
    exact ⟨hdepth, found, hends⟩
  · rintro ⟨hdepth, found, hends⟩
    exact (validate_of_ends hends).trans
      (result_eq_maxDepthExceeded_iff.2 ⟨hdepth, rfl⟩)

end Agenda

/-- Trees: a node has a label and perhaps children, and nothing else. -/
def labelledTree : Schema :=
  ⟨some (KeyMap.ofList [("tree", .ofForm (.properties
      (some (KeyMap.ofList [("label", .ofForm (.type .string))]))
      (some (KeyMap.ofList
        [("children", .ofForm (.elements (.ofForm (.ref "tree"))))])) false))]),
    .ref "tree"⟩

/-- A tree of three levels, of which the lower two are not right. -/
def mislabelledTree : Json :=
  .object [("label", .str "a"), ("children", .arr [
    .object [("label", .num (.int 1))],
    .object [("children", .arr [.object []]), ("size", .null)]])]

def mislabelledTreeViolations : List Violation :=
  [⟨["children", "0", "label"],
    ["definitions", "tree", "properties", "label", "type"]⟩,
    ⟨["children", "1"], ["definitions", "tree", "properties", "label"]⟩,
    ⟨["children", "1", "children", "0"],
      ["definitions", "tree", "properties", "label"]⟩,
    ⟨["children", "1", "size"], ["definitions", "tree"]⟩]

example : validate .unlimited labelledTree mislabelledTree =
    .ok mislabelledTreeViolations := by rfl

end SchemaForms
