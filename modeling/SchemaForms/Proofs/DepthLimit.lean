import SchemaForms.Proofs.Agenda
/-!
The limit on nested refs.  Under a smaller limit a validation does the same
steps up to the first ref that stands inside as many refs as may be active, and
fails there; if there is no such ref, the smaller limit changes nothing
(`validate_maxDepth`).
-/

namespace SchemaForms

theorem Node.tooDeep_iff {limits : Limits} {n : Node} :
    n.tooDeep limits = true ↔ (∃ name, n.schema.form = .ref name) ∧
      0 < limits.maxDepth ∧
      limits.maxDepth ≤ n.place.depth := by
  unfold Node.tooDeep
  split
  next name hform => simp [hform, Limits.depthReached]
  next hform => simpa using fun name hname => absurd hname (hform name)

theorem Node.not_tooDeep (n : Node) {errors : Nat} :
    n.tooDeep ⟨0, errors⟩ ≠ true := by
  rw [Ne, Node.tooDeep_iff]
  rintro ⟨-, hpos, -⟩
  exact Nat.lt_irrefl 0 hpos

/-- The refs that are active at a node, from the inner to the outer one: those
that lead to it from the node `s`.  A ref that has been left again does not lead
there. -/
inductive Node.Active (root : Schema) (s : Node) :
    List String → Node → Prop where
  | start : Active root s [] s
  | ref {refs : List String} {n c : Node} {name : String}
      (hactive : Active root s refs n) (hform : n.schema.form = .ref name)
      (hmeets : n.Meets root (.node c)) :
      Active root s (name :: refs) c
  | other {refs : List String} {n c : Node} (hactive : Active root s refs n)
      (hform : ∀ name, n.schema.form ≠ .ref name)
      (hmeets : n.Meets root (.node c)) :
      Active root s refs c

/-- A place counts the refs that are active there. -/
theorem Node.Active.depth_eq {root : Schema} {s n : Node} {refs : List String}
    (hactive : Active root s refs n) :
    n.place.depth = s.place.depth + refs.length := by
  induction hactive with
  | start => rfl
  | @ref refs n c name _ hform hmeets ih =>
      cases hmeets with
      | target href htarget =>
          change n.place.depth + 1 = _
          rw [ih, List.length_cons, Nat.add_assoc]
      | _ => simp_all
  | other _ hform hmeets ih => rw [hmeets.depth_eq hform, ih]

theorem Node.LeadsTo.exists_active {root : Schema} {s n : Node}
    (hleads : s.LeadsTo root n) :
    ∃ refs, Active root s refs n := by
  induction hleads with
  | refl => exact ⟨[], .start⟩
  | @tail m c _ hmeets ih =>
      obtain ⟨refs, hactive⟩ := ih
      by_cases hform : ∃ name, m.schema.form = .ref name
      · obtain ⟨name, hname⟩ := hform
        exact ⟨name :: refs, .ref hactive hname hmeets⟩
      · exact ⟨refs,
          .other hactive (fun name hname => hform ⟨name, hname⟩) hmeets⟩

namespace Agenda

/-- The validation of a value evaluates a ref while `depth` refs are active. -/
def RefInside (limits : Limits) (schema : Schema) (value : Json)
    (depth : Nat) : Prop :=
  ∃ n todo found name refs,
    Reaches limits schema (start schema value) ⟨.node n :: todo, found⟩ ∧
    n.schema.form = .ref name ∧
      Node.Active schema (.start schema value) refs n ∧
      refs.length = depth

/-- Another validation may nest more refs than `depth`, or any number of
them. -/
def DeeperLimit (depth more : Nat) : Prop := depth < more ∨ more = 0

variable {limits : Limits} {root : Schema} {a b : Agenda}
  {found : List Violation} {reason : Option Halt} {depth more errors : Nat}

theorem DeeperLimit.tooDeep_eq_false (hmore : DeeperLimit depth more)
    (hpos : 0 < depth) {n : Node} (hdeep : n.tooDeep ⟨depth, errors⟩ = false) :
    n.tooDeep ⟨more, errors⟩ = false := by
  rw [← Bool.not_eq_true, Node.tooDeep_iff] at hdeep ⊢
  rintro ⟨hform, hmorepos, hle⟩
  refine hdeep ⟨hform, hpos, ?_⟩
  simp only [DeeperLimit] at hmore hmorepos hle ⊢
  omega

/-- A step within a limit is a step within every larger one. -/
theorem Step.of_shallower (hmore : DeeperLimit depth more) (hpos : 0 < depth)
    (hstep : Step ⟨depth, errors⟩ root a b) : Step ⟨more, errors⟩ root a b := by
  cases hstep with
  | report hlimit => exact .report hlimit
  | enter hdeep => exact .enter (hmore.tooDeep_eq_false hpos hdeep)

theorem Reaches.of_shallower (hmore : DeeperLimit depth more) (hpos : 0 < depth)
    (hreach : Reaches ⟨depth, errors⟩ root a b) :
    Reaches ⟨more, errors⟩ root a b := by
  induction hreach with
  | refl => exact .refl
  | tail _ hstep ih => exact .tail ih (hstep.of_shallower hmore hpos)

/-- An end that the limit has not brought about is the end within every larger
limit. -/
theorem Ends.of_shallower (hmore : DeeperLimit depth more) (hpos : 0 < depth)
    (hends : Ends ⟨depth, errors⟩ root a found reason)
    (hreason : reason ≠ some .depthExceeded) :
    Ends ⟨more, errors⟩ root a found reason := by
  induction hends with
  | stop hstop =>
      cases hstop with
      | done => exact .stop .done
      | errorLimit hlimit => exact .stop (.errorLimit hlimit)
      | depthExceeded hdeep => exact absurd rfl hreason
      | unresolvedRef => exact .stop .unresolvedRef
  | step hstep _ ih => exact .step (hstep.of_shallower hmore hpos) (ih hreason)

theorem Ends.ne_depthExceeded (hends : Ends ⟨0, errors⟩ root a found reason) :
    reason ≠ some .depthExceeded := by
  obtain ⟨b, -, hstop⟩ := hends.exists_stop
  rintro rfl
  cases hstop with
  | @depthExceeded n todo found hdeep => exact Node.not_tooDeep n hdeep

/-- A validation enters only so many refs one inside the other before it
ends. -/
theorem Ends.exists_enough_depth
    (hends : Ends ⟨0, errors⟩ root a found reason) :
    ∃ enough, ∀ depth, enough ≤ depth →
      Ends ⟨depth, errors⟩ root a found reason := by
  induction hends with
  | stop hstop =>
      use 0
      intro depth _
      cases hstop with
      | done => exact .stop .done
      | errorLimit hlimit => exact .stop (.errorLimit hlimit)
      | @depthExceeded n todo found hdeep => exact absurd hdeep n.not_tooDeep
      | unresolvedRef => exact .stop .unresolvedRef
  | step hstep _ ih =>
      obtain ⟨enough, hrest⟩ := ih
      cases hstep with
      | report hlimit =>
          exact ⟨enough, fun depth hle =>
            .step (.report hlimit) (hrest depth hle)⟩
      | @enter n todo before hdeep =>
          refine ⟨max enough (n.place.depth + 1), fun depth hle =>
            .step (.enter ?_) (hrest depth ?_)⟩
          · rw [← Bool.not_eq_true, Node.tooDeep_iff]
            rintro ⟨-, -, hle'⟩
            simp only at hle'
            omega
          · omega

/-- A run within a larger limit is a run within the smaller one too, unless that
one fails on the way. -/
theorem Reaches.or_depthExceeded (depth : Nat)
    (hreach : Reaches ⟨more, errors⟩ root a b) :
    Reaches ⟨depth, errors⟩ root a b ∨
      ∃ found, Ends ⟨depth, errors⟩ root a found (some .depthExceeded) := by
  induction hreach using Relation.ReflTransGen.head_induction_on with
  | refl => exact .inl .refl
  | head hstep _ ih =>
      have hfollow : ∀ {c d}, Step ⟨depth, errors⟩ root c d →
          (Reaches ⟨depth, errors⟩ root d b ∨
            ∃ found, Ends ⟨depth, errors⟩ root d found (some .depthExceeded)) →
          Reaches ⟨depth, errors⟩ root c b ∨
            ∃ found, Ends ⟨depth, errors⟩ root c found
              (some .depthExceeded) := by
        rintro c d hstep' (hreach | ⟨found, hends⟩)
        · exact .inl (.head hstep' hreach)
        · exact .inr ⟨found, .step hstep' hends⟩
      cases hstep with
      | report hlimit => exact hfollow (.report hlimit) ih
      | @enter n todo found _ =>
          cases hdeep : n.tooDeep ⟨depth, errors⟩ with
          | false => exact hfollow (.enter hdeep) ih
          | true => exact .inr ⟨found, .stop (.depthExceeded hdeep)⟩

/-- To evaluate a ref inside some refs is to reach it at a place of that
depth. -/
theorem refInside_iff {schema : Schema} {value : Json} :
    RefInside limits schema value depth ↔ ∃ n todo found name,
      Reaches limits schema (start schema value) ⟨.node n :: todo, found⟩ ∧
        n.schema.form = .ref name ∧ n.place.depth = depth := by
  constructor
  · rintro ⟨n, todo, found, name, refs, hreach, hform, hactive, hlength⟩
    refine ⟨n, todo, found, name, hreach, hform, ?_⟩
    rw [hactive.depth_eq, hlength]
    exact Nat.zero_add depth
  · rintro ⟨n, todo, found, name, hreach, hform, hdepth⟩
    obtain ⟨refs, hactive⟩ :=
      (Reaches.leadsTo hreach List.mem_cons_self).exists_active
    refine ⟨n, todo, found, name, refs, hreach, hform, hactive, ?_⟩
    rw [← hdepth, hactive.depth_eq]
    exact (Nat.zero_add refs.length).symm

/-- Behind as many active refs as there are, the refs were entered one inside
the other. -/
theorem refInside_of_lt {schema : Schema} {value : Json} {n : Node}
    (hreach : Reaches limits schema (start schema value) a)
    (hmem : .node n ∈ a.todo) (hlt : depth < n.place.depth) :
    RefInside limits schema value depth := by
  induction hreach generalizing n with
  | refl =>
      cases List.mem_singleton.1 hmem
      cases hlt
  | tail hreach hstep ih =>
      cases hstep with
      | report hlimit => exact ih (List.mem_cons_of_mem _ hmem) hlt
      | @enter m todo found hdeep =>
          rcases List.mem_append.1 hmem with hpart | htodo
          · have hmeets := Node.mem_parts_iff.1 hpart
            by_cases hform : ∃ name, m.schema.form = .ref name
            · obtain ⟨name, hname⟩ := hform
              by_cases heq : m.place.depth = depth
              · exact refInside_iff.2 ⟨m, todo, found, name, hreach, hname, heq⟩
              · refine ih List.mem_cons_self ?_
                have hle := hmeets.depth_le
                omega
            · refine ih List.mem_cons_self ?_
              rwa [← hmeets.depth_eq fun name hname => hform ⟨name, hname⟩]
          · exact ih (List.mem_cons_of_mem _ htodo) hlt

/-- A validation fails at its limit exactly when it evaluates a ref inside so
many active refs under any larger limit. -/
theorem ends_depthExceeded_iff {schema : Schema} {value : Json}
    (hpos : 0 < depth) (hmore : DeeperLimit depth more) :
    (∃ found, Ends ⟨depth, errors⟩ schema (start schema value) found
        (some .depthExceeded)) ↔
      RefInside ⟨more, errors⟩ schema value depth := by
  constructor
  · rintro ⟨found, hends⟩
    obtain ⟨b, hreach, hstop⟩ := hends.exists_stop
    have hreach' := Reaches.of_shallower hmore hpos hreach
    cases hstop with
    | @depthExceeded n todo found hdeep =>
        obtain ⟨⟨name, hform⟩, -, hle⟩ := Node.tooDeep_iff.1 hdeep
        rcases Nat.eq_or_lt_of_le hle with heq | hlt
        · exact refInside_iff.2 ⟨n, todo, found, name, hreach', hform, heq.symm⟩
        · exact refInside_of_lt hreach' List.mem_cons_self hlt
  · intro hinside
    obtain ⟨n, todo, found, name, hreach, hform, hdepth⟩ :=
      refInside_iff.1 hinside
    have hdeep : n.tooDeep ⟨depth, errors⟩ = true :=
      Node.tooDeep_iff.2 ⟨⟨name, hform⟩, hpos, Nat.le_of_eq hdepth.symm⟩
    rcases Reaches.or_depthExceeded depth hreach with hreach' | hends
    · exact ⟨found, Reaches.ends hreach' (.stop (.depthExceeded hdeep))⟩
    · exact hends

end Agenda

section

variable {schema : Schema} {value : Json} {depth more errors : Nat}

/-- Within a limit on nested refs, every validation has a result. -/
theorem validate_ne_endless (hpos : 0 < depth) :
    validate ⟨depth, errors⟩ schema value ≠ .error .endless := by
  rw [Agenda.validate_eq_result]
  refine Agenda.result_ne_endless (Node.findings_ne_endless hpos _ _ ?_ [])
  rw [allowance, if_neg (Nat.ne_of_gt hpos)]
  exact Nat.le_add_left _ _

/-- A smaller limit fails exactly where a ref is evaluated inside so many active
ones. -/
theorem validate_eq_maxDepthExceeded_iff_refInside (hpos : 0 < depth)
    (hmore : Agenda.DeeperLimit depth more) :
    validate ⟨depth, errors⟩ schema value = .error (.maxDepthExceeded depth) ↔
      Agenda.RefInside ⟨more, errors⟩ schema value depth := by
  rw [Agenda.validate_eq_maxDepthExceeded_iff,
    ← Agenda.ends_depthExceeded_iff hpos hmore]
  simp

/-- A smaller limit that is not met changes nothing. -/
theorem validate_eq_of_not_refInside (hpos : 0 < depth)
    (hmore : Agenda.DeeperLimit depth more)
    (hinside : ¬ Agenda.RefInside ⟨more, errors⟩ schema value depth) :
    validate ⟨depth, errors⟩ schema value =
      validate ⟨more, errors⟩ schema value := by
  have hreturns : validate ⟨depth, errors⟩ schema value ≠ .error .endless :=
    validate_ne_endless hpos
  obtain ⟨found, reason, hends, hresult⟩ := Agenda.ends_of_validate hreturns
  have hreason : reason ≠ some .depthExceeded := by
    rintro rfl
    exact hinside ((Agenda.ends_depthExceeded_iff hpos hmore).1 ⟨found, hends⟩)
  rw [hresult, Agenda.validate_of_ends (hends.of_shallower hmore hpos hreason)]
  exact Agenda.result_eq_of_ne_depthExceeded hreason

/-- A failure at a larger limit is one at every smaller limit. -/
theorem validate_maxDepthExceeded_of_deeper (hpos : 0 < depth)
    (hmore : Agenda.DeeperLimit depth more) {limit : Nat}
    (hfailed : validate ⟨more, errors⟩ schema value =
      .error (.maxDepthExceeded limit)) :
    validate ⟨depth, errors⟩ schema value =
      .error (.maxDepthExceeded depth) := by
  rw [validate_eq_maxDepthExceeded_iff_refInside hpos hmore]
  by_contra hinside
  have hfailed' :=
    (validate_eq_of_not_refInside hpos hmore hinside).trans hfailed
  obtain ⟨rfl, hends⟩ := Agenda.validate_eq_maxDepthExceeded_iff.1 hfailed'
  exact hinside ((Agenda.ends_depthExceeded_iff hpos hmore).1 hends)

/-- A validation that has a result without the limit has the same one within
every limit that is large enough. -/
theorem exists_enough_depth
    (hreturns : validate ⟨0, errors⟩ schema value ≠ .error .endless) :
    ∃ enough, ∀ depth, enough ≤ depth →
      validate ⟨depth, errors⟩ schema value =
        validate ⟨0, errors⟩ schema value := by
  obtain ⟨found, reason, hends, hresult⟩ := Agenda.ends_of_validate hreturns
  obtain ⟨enough, hdeep⟩ := hends.exists_enough_depth
  use enough
  intro depth hle
  rw [hresult, Agenda.validate_of_ends (hdeep depth hle)]
  exact Agenda.result_eq_of_ne_depthExceeded hends.ne_depthExceeded

/-- The larger limit lets a ref inside `depth` others through, and finds that it
leads nowhere. -/
theorem validate_eq_unresolvedRef (hmore : Agenda.DeeperLimit depth more)
    {n : Node} {name : String} {todo : List Part} {found : List Violation}
    (hreach : Agenda.Reaches ⟨more, errors⟩ schema (.start schema value)
      ⟨.node n :: todo, found⟩)
    (hform : n.schema.form = .ref name) (hdepth : n.place.depth = depth)
    (htarget : schema.definition? name = none) :
    validate ⟨more, errors⟩ schema value = .error (.unresolvedRef name) := by
  have hdeep : n.tooDeep ⟨more, errors⟩ = false := by
    rw [← Bool.not_eq_true, Node.tooDeep_iff]
    rintro ⟨-, hmorepos, hle⟩
    simp only [Agenda.DeeperLimit] at hmore hmorepos hle
    omega
  have hends : Agenda.Ends ⟨more, errors⟩ schema ⟨.node n :: todo, found⟩ found
      (some (.unresolvedRef name)) := by
    refine .step (.enter hdeep) (.stop ?_)
    rw [Node.parts_dangling hform htarget]
    exact .unresolvedRef
  exact Agenda.validate_of_ends (Agenda.Reaches.ends hreach hends)

/-- The limit on nested refs is exact, and changes nothing where it is not met;
at a ref to nothing that stands at the limit, it is the limit that the
validation fails at. -/
theorem validate_maxDepth (schema : Schema) (value : Json)
    (depth more errors : Nat) (hpos : 0 < depth)
    (hmore : depth < more ∨ more = 0) :
    (validate ⟨depth, errors⟩ schema value = .error (.maxDepthExceeded depth) ↔
      Agenda.RefInside ⟨more, errors⟩ schema value depth) ∧
    (¬ Agenda.RefInside ⟨more, errors⟩ schema value depth →
      validate ⟨depth, errors⟩ schema value =
        validate ⟨more, errors⟩ schema value) ∧
    (∀ limit, validate ⟨more, errors⟩ schema value =
      .error (.maxDepthExceeded limit) →
      validate ⟨depth, errors⟩ schema value =
        .error (.maxDepthExceeded depth)) ∧
    ∀ n name refs todo found,
      Agenda.Reaches ⟨more, errors⟩ schema (.start schema value)
        ⟨.node n :: todo, found⟩ →
      n.schema.form = .ref name →
      Node.Active schema (.start schema value) refs n →
      refs.length = depth → schema.definition? name = none →
        validate ⟨more, errors⟩ schema value = .error (.unresolvedRef name) ∧
          validate ⟨depth, errors⟩ schema value =
            .error (.maxDepthExceeded depth) := by
  refine ⟨validate_eq_maxDepthExceeded_iff_refInside hpos hmore,
    validate_eq_of_not_refInside hpos hmore,
    fun limit => validate_maxDepthExceeded_of_deeper hpos hmore, ?_⟩
  intro n name refs todo found hreach hform hactive hlength htarget
  have hinside : Agenda.RefInside ⟨more, errors⟩ schema value depth :=
    ⟨n, todo, found, name, refs, hreach, hform, hactive, hlength⟩
  have hdepth : n.place.depth = depth := by
    rw [hactive.depth_eq, hlength]
    exact Nat.zero_add depth
  exact ⟨validate_eq_unresolvedRef hmore hreach hform hdepth htarget,
    (validate_eq_maxDepthExceeded_iff_refInside hpos hmore).2 hinside⟩

/-- A ref to a definition that is a ref to nothing. -/
def brokenChain : Schema :=
  ⟨some (KeyMap.ofList [("first", .ofForm (.ref "second"))]), .ref "first"⟩

/-- The trees nest three refs at most, and the broken chain ends at its second
ref. -/
theorem validate_maxDepth_instances :
    Agenda.RefInside ⟨0, 0⟩ labelledTree mislabelledTree 2 ∧
      ¬ Agenda.RefInside ⟨0, 0⟩ labelledTree mislabelledTree 3 ∧
      validate ⟨3, 0⟩ labelledTree mislabelledTree =
        .ok mislabelledTreeViolations ∧
      validate ⟨1, 0⟩ labelledTree mislabelledTree =
        .error (.maxDepthExceeded 1) ∧
      validate ⟨2, 0⟩ brokenChain .null = .error (.unresolvedRef "second") ∧
      validate ⟨1, 0⟩ brokenChain .null = .error (.maxDepthExceeded 1) := by
  have htwo :=
    validate_maxDepth labelledTree mislabelledTree 2 0 0 (by decide) (.inr rfl)
  have hthree :=
    validate_maxDepth labelledTree mislabelledTree 3 0 0 (by decide) (.inr rfl)
  have hone := validate_maxDepth labelledTree mislabelledTree 1 2 0 (by decide)
    (.inl (by decide))
  have hbroken :=
    validate_maxDepth brokenChain .null 1 2 0 (by decide) (.inl (by decide))
  have hlast : ¬ Agenda.RefInside ⟨0, 0⟩ labelledTree mislabelledTree 3 := by
    intro hinside
    have hfailed := hthree.1.2 hinside
    cases hfailed.symm.trans (rfl : _ = Except.ok mislabelledTreeViolations)
  -- The second ref of the chain is the only thing to visit behind the first
  -- one.
  have hsecond :=
    hbroken.2.2.2 ⟨Place.root.atDefinition "first", .ofForm (.ref "second"),
      .null, none⟩
      "second" ["first"] [] [] (.single (.enter rfl)) rfl
      (.ref .start rfl (.target rfl rfl)) rfl rfl
  exact ⟨htwo.1.1 rfl, hlast, hthree.2.1 hlast, hone.2.2.1 2 rfl,
    hsecond.1, hsecond.2⟩

end

end SchemaForms
