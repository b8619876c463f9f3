import SchemaForms.Proofs.Visited
import Mathlib.Data.Finset.Card
import Mathlib.Data.Nat.Find
/-!
The allowance of nested refs.  A visit that ends does not depend on how much it
is allowed beyond what it needs (`findings_extends`); a limit of depth never
uses up the allowance (`findings_ne_endless`); and without a limit the allowance
of a validation is enough whenever any allowance is (`findings_allowance`).  So
a validation is endless only if it would go on for ever.
-/

namespace SchemaForms

/-- One step does what the other does, unless that one goes on for ever. -/
def Findings.Extends (more step : Findings) : Prop :=
  ∀ found, (step found).2 ≠ some .endless → more found = step found

namespace Findings.Extends

variable {α : Type}

theorem refl (step : Findings) : Findings.Extends step step := fun _ _ => rfl

theorem trans {most more step : Findings} (hmost : Findings.Extends most more)
    (hmore : Findings.Extends more step) : Findings.Extends most step := by
  intro found hne
  have heq := hmore found hne
  rw [hmost found (heq ▸ hne), heq]

theorem andThen {first first' next next' : Findings}
    (hfirst : Findings.Extends first' first)
    (hnext : Findings.Extends next' next) :
    Findings.Extends (first'.andThen next') (first.andThen next) := by
  intro found hne
  rcases hrun : first found with ⟨behind, _ | reason⟩
  · rw [Findings.andThen_of_none hrun] at hne ⊢
    have hrun' : first' found = (behind, none) := by
      rw [hfirst found (by simp [hrun]), hrun]
    rw [Findings.andThen_of_none hrun', hnext behind hne]
  · rw [Findings.andThen_of_some hrun] at hne ⊢
    have hrun' : first' found = (behind, some reason) := by
      rw [hfirst found (by rwa [hrun]), hrun]
    rw [Findings.andThen_of_some hrun']

theorem each {step step' : α → Findings} {items : List α}
    (hstep : ∀ item ∈ items, Findings.Extends (step' item) (step item)) :
    Findings.Extends (Findings.each step' items)
      (Findings.each step items) := by
  induction items with
  | nil => exact refl _
  | cons item rest ih =>
      rw [Findings.each_cons, Findings.each_cons]
      exact andThen (hstep item List.mem_cons_self)
        (ih fun other hother => hstep other (List.mem_cons_of_mem item hother))

end Findings.Extends

/-- A schema defines no more names than it has definitions. -/
theorem Schema.card_le_of_defined {root : Schema} {names : Finset String}
    (hdefined : ∀ name ∈ names, (root.definition? name).isSome = true) :
    names.card ≤ (root.definitions.getD .nil).size := by
  have hsub : names ⊆ (root.definitions.getD .nil).keys.toFinset := by
    intro name hname
    have hisSome := hdefined name hname
    rw [List.mem_toFinset, Entries.mem_keys_iff]
    cases hdefinitions : root.definitions with
    | none => simp [Schema.definition?, hdefinitions] at hisSome
    | some definitions =>
        simpa [Schema.definition?, hdefinitions, Entries.contains] using hisSome
  calc names.card ≤ (root.definitions.getD .nil).keys.toFinset.card :=
    Finset.card_le_card hsub
      _ ≤ (root.definitions.getD .nil).keys.length := List.toFinset_card_le _
      _ = (root.definitions.getD .nil).size := by simp [Entries.keys]

namespace Node

variable {limits : Limits} {root : Schema}

/-- Nodes are visited by what is left of the allowance, and for the same
allowance by the size of their schemas. -/
theorem allowance_induction (root : Schema) {motive : Nat → Node → Prop}
    (hparts : ∀ allowance n, (∀ name, n.schema.form ≠ .ref name) →
      (∀ c, n.Meets root (.node c) → motive allowance c) → motive allowance n)
    (hzero : ∀ n name, n.schema.form = .ref name → motive 0 n)
    (href : ∀ allowance n name, n.schema.form = .ref name →
      (∀ less ≤ allowance, ∀ c, motive less c) → motive (allowance + 1) n)
    (allowance : Nat) (n : Node) : motive allowance n := by
  induction allowance using Nat.strong_induction_on generalizing n with
  | h allowance ih =>
      induction hsize : sizeOf n.schema using Nat.strong_induction_on
        generalizing n with
      | h size ihsize =>
          by_cases hform : ∃ name, n.schema.form = .ref name
          · obtain ⟨name, hname⟩ := hform
            cases allowance with
            | zero => exact hzero n name hname
            | succ allowance =>
                exact href allowance n name hname fun less hless c =>
                  ih less (Nat.lt_succ_of_le hless) c
          · have hform' : ∀ name, n.schema.form ≠ .ref name := fun name hname =>
              hform ⟨name, hname⟩
            apply hparts allowance n hform'
            intro c hmeets
            exact ihsize _ (hsize ▸ hmeets.sizeOf_lt hform') c rfl

/-- The node behind a ref to a definition. -/
def entry (n : Node) (name : String) (target : Schema) : Node :=
  ⟨n.place.atDefinition name, target, n.value, none⟩

theorem parts_ref {n : Node} {name : String} {target : Schema}
    (hform : n.schema.form = .ref name)
    (htarget : root.definition? name = some target) :
    n.parts root = [.node (n.entry name target)] := by
  simp only [parts, hform, htarget, entry]

theorem parts_dangling {n : Node} {name : String}
    (hform : n.schema.form = .ref name)
    (htarget : root.definition? name = none) :
    n.parts root = [.dangling name] := by
  simp only [parts, hform, htarget]

theorem findings_dangling {n : Node} {name : String}
    (hform : n.schema.form = .ref name) (htarget : root.definition? name = none)
    (hdeep : n.tooDeep limits = false) (allowance : Nat) :
    n.findings limits root allowance = .halt (.unresolvedRef name) := by
  cases allowance with
  | zero => simp [findings_ref_zero hform hdeep, htarget]
  | succ allowance =>
      simp [findings_ref hform hdeep, parts_dangling hform htarget]

theorem part_extends {allowance more : Nat} {part : Part}
    (hnode : ∀ c, part = .node c →
      Findings.Extends (c.findings limits root more)
      (c.findings limits root allowance)) :
    Findings.Extends (part.findings limits (Node.findings limits root more))
      (part.findings limits (Node.findings limits root allowance)) := by
  cases part with
  | clash place => exact .refl _
  | dangling name => exact .refl _
  | node c => exact hnode c rfl

theorem findings_succ_extends (allowance : Nat) (n : Node) :
    Findings.Extends (n.findings limits root (allowance + 1))
      (n.findings limits root allowance) := by
  induction allowance, n using allowance_induction root with
  | hparts allowance n hform ih =>
      rw [findings_eq_each hform, findings_eq_each hform]
      exact .each fun part hpart => part_extends fun c hc =>
        ih c (mem_parts_iff.1 (hc ▸ hpart))
  | hzero n name hform =>
      cases hdeep : n.tooDeep limits with
      | true =>
          rw [findings_of_tooDeep hdeep, findings_of_tooDeep hdeep]
          exact .refl _
      | false =>
          cases htarget : root.definition? name with
          | none =>
              rw [findings_dangling hform htarget hdeep,
                findings_dangling hform htarget hdeep]
              exact .refl _
          | some target =>
              intro found hne
              exact absurd (by simp [findings_ref_zero hform hdeep, htarget,
                Findings.halt]) hne
  | href allowance n name hform ih =>
      cases hdeep : n.tooDeep limits with
      | true =>
          rw [findings_of_tooDeep hdeep, findings_of_tooDeep hdeep]
          exact .refl _
      | false =>
          rw [findings_ref hform hdeep, findings_ref hform hdeep]
          exact .each fun part _ => part_extends fun c _ =>
            ih allowance (Nat.le_refl _) c

/-- A visit that ends does not depend on the rest of its allowance. -/
theorem findings_extends {allowance more : Nat} (hle : allowance ≤ more)
    (n : Node) :
    Findings.Extends (n.findings limits root more)
      (n.findings limits root allowance) := by
  induction more, hle using Nat.le_induction with
  | base => exact .refl _
  | succ more hle ih => exact (findings_succ_extends more n).trans ih

theorem parts_extend (limits : Limits) (root : Schema) (allowance : Nat)
    (parts : List Part) :
    Findings.Extends
      (Findings.each (Part.findings limits
        (Node.findings limits root (allowance + 1))) parts)
      (Findings.each
        (Part.findings limits (Node.findings limits root allowance)) parts) :=
  .each fun _ _ => part_extends fun c _ => findings_succ_extends allowance c

theorem each_ne_endless {α : Type} {step : α → Findings} {items : List α}
    (hstep : ∀ item ∈ items, ∀ found, (step item found).2 ≠ some .endless)
    (found : List Violation) : (Findings.each step items found).2 ≠
      some .endless := by
  induction items generalizing found with
  | nil => simp [Findings.skip]
  | cons item rest ih =>
      rw [Findings.each_cons]
      have hitem := hstep item List.mem_cons_self found
      rcases hrun : step item found with ⟨behind, _ | reason⟩
      · rw [Findings.andThen_of_none hrun]
        exact ih
          (fun other hother => hstep other (List.mem_cons_of_mem item hother))
          behind
      · rw [Findings.andThen_of_some hrun]
        rwa [hrun] at hitem

theorem part_ne_endless {allowance : Nat} {part : Part}
    (hnode : ∀ c, part = .node c → ∀ found,
      (c.findings limits root allowance found).2 ≠ some .endless) (found :
      List Violation) :
    (part.findings limits (Node.findings limits root allowance) found).2 ≠
      some .endless := by
  cases part with
  | clash place =>
      rw [Part.findings_clash, Findings.report]
      split <;> simp
  | dangling name => simp [Findings.halt]
  | node c => exact hnode c rfl found

/-- With a limit of depth, an allowance that reaches up to the limit is never
used up. -/
theorem findings_ne_endless (hlimit : 0 < limits.maxDepth) (allowance : Nat)
    (n : Node) (henough : limits.maxDepth ≤ n.place.depth + allowance)
    (found : List Violation) :
    (n.findings limits root allowance found).2 ≠ some .endless := by
  induction allowance, n using allowance_induction root generalizing found with
  | hparts allowance n hform ih =>
      rw [findings_eq_each hform]
      apply each_ne_endless
      intro part hpart
      apply part_ne_endless
      intro c hc
      have hmeets := mem_parts_iff.1 (hc ▸ hpart)
      exact ih c hmeets (hmeets.depth_eq hform ▸ henough)
  | hzero n name hform =>
      have hdeep : n.tooDeep limits = true := by
        simpa [tooDeep, hform, Limits.depthReached, hlimit] using henough
      simp [findings_of_tooDeep hdeep, Findings.halt]
  | href allowance n name hform ih =>
      cases hdeep : n.tooDeep limits with
      | true => simp [findings_of_tooDeep hdeep, Findings.halt]
      | false =>
          rw [findings_ref hform hdeep]
          apply each_ne_endless
          intro part hpart
          apply part_ne_endless
          intro c hc
          cases htarget : root.definition? name with
          | none =>
              rw [parts_dangling hform htarget, hc] at hpart
              cases List.mem_singleton.1 hpart
          | some target =>
              rw [parts_ref hform htarget, hc] at hpart
              cases List.mem_singleton.1 hpart
              apply ih allowance (Nat.le_refl _)
              simp only [entry, Place.atDefinition]
              omega

def atDepth (depth : Nat) (n : Node) : Node := n.relocate fun place =>
    { place with depth }

theorem compatible_depth (depth : Nat) :
    Place.Compatible fun place : Place => { place with depth } :=
  ⟨fun _ _ => rfl, fun _ _ => rfl⟩

theorem tooDeep_eq_false (hlimit : limits.maxDepth = 0) (n : Node) :
    n.tooDeep limits = false := by
  unfold tooDeep
  split
  · simp [Limits.depthReached, hlimit]
  · rfl

theorem each_congr {α : Type} {step step' : α → Findings} {items : List α}
    (hstep : ∀ item ∈ items, step item = step' item) :
    Findings.each step items = Findings.each step' items := by
  induction items with
  | nil => rfl
  | cons item rest ih =>
      rw [Findings.each_cons, Findings.each_cons, hstep item List.mem_cons_self,
        ih fun other hother => hstep other (List.mem_cons_of_mem item hother)]

/-- Without a limit, the number of active refs does not matter. -/
theorem findings_atDepth (hlimit : limits.maxDepth = 0) (allowance : Nat)
    (n : Node) (depth : Nat) :
    (n.atDepth depth).findings limits root allowance =
      n.findings limits root allowance := by
  induction allowance, n using allowance_induction root generalizing depth with
  | hparts allowance n hform ih =>
      have hform' : ∀ name, (n.atDepth depth).schema.form ≠ .ref name := hform
      rw [findings_eq_each hform, findings_eq_each hform', atDepth,
        parts_relocate (compatible_depth depth) root n hform, Findings.each_map]
      apply each_congr
      intro part hpart
      cases part with
      | clash place => rfl
      | dangling name => rfl
      | node c => exact ih c (mem_parts_iff.1 hpart) depth
  | hzero n name hform =>
      have hform' : (n.atDepth depth).schema.form = .ref name := hform
      rw [findings_ref_zero hform (tooDeep_eq_false hlimit n),
        findings_ref_zero hform' (tooDeep_eq_false hlimit _)]
  | href allowance n name hform ih =>
      have hform' : (n.atDepth depth).schema.form = .ref name := hform
      rw [findings_ref hform (tooDeep_eq_false hlimit n),
        findings_ref hform' (tooDeep_eq_false hlimit _)]
      cases htarget : root.definition? name with
      | none => rw [parts_dangling hform htarget, parts_dangling hform' htarget]
      | some target =>
          rw [parts_ref hform htarget, parts_ref hform' htarget,
            Findings.each_singleton, Findings.each_singleton]
          exact ih allowance (Nat.le_refl _) (n.entry name target) (depth + 1)

/-- The definitions from which a visit has entered the value of a node already,
without coming closer to its end.  With less than this allowance, no visit comes
back from them. -/
structure Pending (limits : Limits) (root : Schema) (found : List Violation)
    (allowance : Nat) (n : Node) (names : Finset String) : Prop where
  defined : ∀ name ∈ names, (root.definition? name).isSome = true
  endless : ∀ name ∈ names, ∀ target, root.definition? name = some target →
    ∀ less < allowance,
      ((n.entry name target).findings limits root less found).2 = some .endless

namespace Pending

variable {found : List Violation} {allowance : Nat} {n : Node}
  {names : Finset String}

theorem empty : Pending limits root found allowance n ∅ := ⟨by simp, by simp⟩

theorem card_le (hpending : Pending limits root found allowance n names) :
    names.card ≤ (root.definitions.getD .nil).size :=
  Schema.card_le_of_defined hpending.defined

/-- A visit that comes back enters none of them. -/
theorem not_mem (hpending : Pending limits root found allowance n names)
    {name : String} {target : Schema}
    (htarget : root.definition? name = some target) {less : Nat}
    (hless : less < allowance)
    (hends : ((n.entry name target).findings limits root less found).2 ≠
      some .endless) :
    name ∉ names :=
  fun hname => hends (hpending.endless name hname target htarget less hless)

/-- Behind a node with the same value at the same place of the instance, only
the number of active refs differs. -/
theorem same_value (hlimit : limits.maxDepth = 0)
    (hpending : Pending limits root found allowance n names) {c : Node}
    (hvalue : c.value = n.value)
    (hpath : c.place.instancePath = n.place.instancePath) :
    Pending limits root found allowance c names := by
  refine ⟨hpending.defined, ?_⟩
  intro name hname target htarget less hless
  have hentry : c.entry name target = (n.entry name target).atDepth
      (c.place.depth + 1) := by
    simp only [entry, atDepth, relocate, Place.atDefinition, hvalue, hpath]
  rw [hentry, findings_atDepth hlimit]
  exact hpending.endless name hname target htarget less hless

theorem insert (hpending : Pending limits root found allowance n names)
    {name : String} {target : Schema}
    (htarget : root.definition? name = some target)
    (hendless : ∀ less < allowance,
      ((n.entry name target).findings limits root less found).2 =
        some .endless) :
    Pending limits root found allowance n (insert name names) := by
  constructor
  · intro other hother
    rcases Finset.mem_insert.1 hother with rfl | hother
    · simp [htarget]
    · exact hpending.defined other hother
  · intro other hother target' htarget' less hless
    rcases Finset.mem_insert.1 hother with rfl | hother
    · cases htarget.symm.trans htarget'
      exact hendless less hless
    · exact hpending.endless other hother target' htarget' less hless

theorem less {most : Nat} (hpending : Pending limits root found most n names)
    (hle : allowance ≤ most) : Pending limits root found allowance n names :=
  ⟨hpending.defined, fun name hname target htarget less hless =>
    hpending.endless name hname target htarget less
      (Nat.lt_of_lt_of_le hless hle)⟩

end Pending

/-- The refs that a visit can nest behind a node, when some definitions are
pending there: each of the others may be entered once with the value of the
node, and each of all with every smaller value. -/
def nesting (root : Schema) (n : Node) (names : Finset String) : Nat :=
  (root.definitions.getD .nil).size * (n.value.height + 1) - names.card

theorem nesting_empty_le {n c : Node} {names : Finset String}
    (hcard : names.card ≤ (root.definitions.getD .nil).size)
    (hlt : c.value.height < n.value.height) :
    c.nesting root ∅ ≤ n.nesting root names := by
  have hle : (root.definitions.getD .nil).size * (c.value.height + 1) ≤
      (root.definitions.getD .nil).size * n.value.height :=
        Nat.mul_le_mul_left _ hlt
  simp only [nesting, Finset.card_empty, Nat.mul_succ] at hle ⊢
  omega

theorem nesting_insert {n : Node} {names : Finset String} {name : String}
    (hname : name ∉ names)
    (hcard : (insert name names).card ≤ (root.definitions.getD .nil).size) :
    n.nesting root names = n.nesting root (insert name names) + 1 := by
  have hle : (root.definitions.getD .nil).size ≤
      (root.definitions.getD .nil).size * (n.value.height + 1) :=
    Nat.le_mul_of_pos_right _ (Nat.succ_pos _)
  rw [Finset.card_insert_of_notMem hname] at hcard
  simp only [nesting, Finset.card_insert_of_notMem hname]
  omega

/-- A visit behind a ref takes one from the allowance. -/
theorem findings_ref_succ {n : Node} {name : String} {target : Schema}
    (hform : n.schema.form = .ref name)
    (htarget : root.definition? name = some target)
    (hdeep : n.tooDeep limits = false) (allowance : Nat) :
    n.findings limits root (allowance + 1) =
      (n.entry name target).findings limits root allowance := by
  rw [findings_ref hform hdeep, parts_ref hform htarget,
    Findings.each_singleton, Part.findings_node]

/-- If any allowance is enough, there is a least one. -/
theorem exists_least_allowance {n : Node} {allowance : Nat}
    {found : List Violation}
    (hends : (n.findings limits root allowance found).2 ≠ some .endless) :
    ∃ least, least ≤ allowance ∧ (n.findings limits root least found).2 ≠
      some .endless ∧
      ∀ less < least, (n.findings limits root less found).2 =
        some .endless := by
  have hexists : ∃ more, (n.findings limits root more found).2 ≠
      some .endless := ⟨allowance, hends⟩
  refine ⟨Nat.find hexists, Nat.find_min' hexists hends,
    Nat.find_spec hexists, ?_⟩
  intro less hless
  exact not_not.1 (Nat.find_min hexists hless)

/-- A visit that ends with some allowance ends with the number of refs that it
can nest. -/
theorem findings_nesting (hlimit : limits.maxDepth = 0) (allowance : Nat)
    (n : Node) (names : Finset String) (found : List Violation)
    (hpending : Pending limits root found allowance n names)
    (hends : (n.findings limits root allowance found).2 ≠ some .endless) :
    n.findings limits root (n.nesting root names) found =
      n.findings limits root allowance found := by
  induction allowance, n using allowance_induction root generalizing names found
    with
  | hparts allowance n hform ih =>
      rw [findings_eq_each hform] at hends ⊢
      rw [findings_eq_each hform]
      by_cases hsame : ∃ c, n.parts root = [.node c] ∧ c.value = n.value ∧
          c.place.instancePath = n.place.instancePath
      · obtain ⟨c, hparts, hvalue, hpath⟩ := hsame
        have hmeets : n.Meets root (.node c) :=
          mem_parts_iff.1 (by simp [hparts])
        have hnesting : c.nesting root names = n.nesting root names := by
          simp only [nesting, hvalue]
        rw [hparts, Findings.each_singleton, Part.findings_node] at hends ⊢
        rw [Findings.each_singleton, Part.findings_node, ← hnesting]
        exact ih c hmeets names found
          (hpending.same_value hlimit hvalue hpath) hends
      · apply Findings.Extends.each _ found hends
        intro part hpart
        apply part_extends
        intro c hc
        have hmeets := mem_parts_iff.1 (hc ▸ hpart)
        have hlt := hmeets.height_lt_or.resolve_right fun h => hsame ⟨c, h⟩
        -- A smaller value starts with no pending definition, and this pays for
        -- all that are.
        intro behind hne
        have hbehind := ih c hmeets ∅ behind .empty hne
        rw [findings_extends (nesting_empty_le hpending.card_le hlt) c behind
          (hbehind ▸ hne),
          hbehind]
  | hzero n name hform =>
      have hdeep := tooDeep_eq_false hlimit n
      cases htarget : root.definition? name with
      | none =>
          rw [findings_dangling hform htarget hdeep,
            findings_dangling hform htarget hdeep]
      | some target =>
          exact absurd (by simp [findings_ref_zero hform hdeep, htarget,
            Findings.halt]) hends
  | href allowance n name hform ih =>
      have hdeep := tooDeep_eq_false hlimit n
      cases htarget : root.definition? name with
      | none =>
          rw [findings_dangling hform htarget hdeep,
            findings_dangling hform htarget hdeep]
      | some target =>
          rw [findings_ref_succ hform htarget hdeep] at hends
          have hfresh :=
            hpending.not_mem htarget (Nat.lt_succ_self allowance) hends
          -- With the least allowance that is enough behind the ref, the visit
          -- does not come back from entering the same definition once more.
          obtain ⟨least, hle, hleast, hmin⟩ := exists_least_allowance hends
          have hpending' :=
            ((hpending.less (Nat.le_succ_of_le hle)).insert htarget hmin)
          have hbound :=
            ih least hle (n.entry name target) (insert name names) found
              (hpending'.same_value hlimit rfl rfl) hleast
          have hnesting :
              (n.entry name target).nesting root (insert name names) =
              n.nesting root (insert name names) := rfl
          rw [hnesting] at hbound
          rw [nesting_insert hfresh hpending'.card_le,
            findings_ref_succ hform htarget hdeep,
            findings_ref_succ hform htarget hdeep, hbound]
          exact (findings_extends hle _ found hleast).symm

/-- Without a limit of depth, the allowance of a validation is enough whenever
any is. -/
theorem findings_allowance (hlimit : limits.maxDepth = 0) {enough : Nat}
    {value : Json} {found : List Violation}
    (hends : ((start root value).findings limits root enough found).2 ≠
      some .endless) :
    (start root value).findings limits root
        (allowance limits root value) found =
      (start root value).findings limits root enough found := by
  rw [allowance, if_pos hlimit]
  exact findings_nesting hlimit enough (start root value) ∅ found .empty hends

end Node

end SchemaForms
