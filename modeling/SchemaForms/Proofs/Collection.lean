import SchemaForms.Proofs.Frames
import SchemaForms.Proofs.SideBySide
import SchemaForms.Proofs.Listing
/-!
Arrays and objects as collections.  An elements form or a values form that may
collect any number of violations does with a collection what its schema, as the
root, does with every item alone (`validate_collection`): agendas in a row yield
what each of them yields (`Agenda.Yields.append`), and the validation of an item
goes through the same steps inside a collection as alone, at places that differ
by the step to the item until a ref is followed (`lockStep_inItem`).
-/

namespace SchemaForms

namespace Agenda

variable {depth : Nat} {root : Schema} {a b : Agenda} {found : List Violation}
  {parts rest : List Part} {reason : Option Halt}
  {first next : Except ValidationFailure (List Violation)}

/-- The same agenda with some violations found before it, and some parts to be
visited behind it. -/
def frame (before : List Violation) (behind : List Part)
    (a : Agenda) : Agenda :=
  ⟨a.todo ++ behind, before ++ a.found⟩

theorem errorsReached_of_unlimited {count : Nat} :
    Limits.errorsReached ⟨depth, 0⟩ count = false := by
  simp [Limits.errorsReached]

section

variable (before : List Violation) (behind : List Part)

theorem Step.frame (hstep : Step ⟨depth, 0⟩ root a b) :
    Step ⟨depth, 0⟩ root (a.frame before behind) (b.frame before behind) := by
  cases hstep with
  | report hlimit =>
      simp only [Agenda.frame, List.cons_append, ← List.append_assoc]
      exact .report errorsReached_of_unlimited
  | enter hdeep =>
      simp only [Agenda.frame, List.cons_append, List.append_assoc]
      exact .enter hdeep

theorem Reaches.frame (hreach : Reaches ⟨depth, 0⟩ root a b) :
    Reaches ⟨depth, 0⟩ root (a.frame before behind)
      (b.frame before behind) := by
  induction hreach with
  | refl => exact .refl
  | tail _ hstep ih => exact ih.tail (hstep.frame before behind)

/-- An agenda that is worked off leaves what stands behind it. -/
theorem Ends.reaches_frame (hends : Ends ⟨depth, 0⟩ root a found none) :
    Reaches ⟨depth, 0⟩ root (a.frame before behind)
      ⟨behind, before ++ found⟩ := by
  obtain ⟨b, hreach, hstop⟩ := hends.exists_stop
  cases hstop with
  | done => exact hreach.frame before behind

/-- A failure in an agenda is met in front of what stands behind it. -/
theorem Ends.frame {halt : Halt}
    (hends : Ends ⟨depth, 0⟩ root a found (some halt)) :
    Ends ⟨depth, 0⟩ root (a.frame before behind) (before ++ found)
      (some halt) := by
  obtain ⟨b, hreach, hstop⟩ := hends.exists_stop
  refine Reaches.ends (hreach.frame before behind) (.stop ?_)
  cases hstop with
  | errorLimit hlimit =>
      rw [errorsReached_of_unlimited] at hlimit
      cases hlimit
  | depthExceeded hdeep => exact .depthExceeded hdeep
  | unresolvedRef => exact .unresolvedRef

/-- An agenda that comes to an end inside a larger one comes to an end. -/
theorem Ends.exists_of_frame
    (hends : Ends ⟨depth, 0⟩ root (a.frame before behind) found reason) :
    ∃ found reason, Ends ⟨depth, 0⟩ root a found reason := by
  generalize hframe : a.frame before behind = framed at hends
  induction hends generalizing a with
  | stop hstop =>
      rcases step_or_stops ⟨depth, 0⟩ root a with
        ⟨b, hstep⟩ | ⟨found, reason, hstop'⟩
      · exact absurd (hframe ▸ hstep.frame before behind) hstop.not_step
      · exact ⟨found, reason, .stop hstop'⟩
  | step hstep' _ ih =>
      rcases step_or_stops ⟨depth, 0⟩ root a with
        ⟨b, hstep⟩ | ⟨found, reason, hstop⟩
      · have hframed := hstep.frame before behind
        rw [hframe] at hframed
        obtain ⟨found, reason, hends⟩ := ih (hframed.unique hstep')
        exact ⟨found, reason, .step hstep hends⟩
      · exact ⟨found, reason, .stop hstop⟩

theorem Yields.endless_frame
    (hnever : ∀ found reason, ¬ Ends ⟨depth, 0⟩ root a found reason) :
    Yields ⟨depth, 0⟩ root (a.frame before behind) (.error .endless) := by
  refine .endless fun found reason hends => ?_
  obtain ⟨found', reason', hends'⟩ := hends.exists_of_frame before behind
  exact hnever found' reason' hends'

end

/-- Only the list of a validation without a failure tells what was found
before. -/
theorem result_append {halt : Option Halt} (before : List Violation)
    (limits : Limits) :
    result limits (before ++ found) halt = (result limits found halt).map
      (before ++ ·) := by
  rcases halt with _ | halt
  · rfl
  · cases halt <;> rfl

/-- What is found before an agenda stands in front of what it yields. -/
theorem Yields.frame (before : List Violation)
    (hyields : Yields ⟨depth, 0⟩ root a next) :
    Yields ⟨depth, 0⟩ root (a.frame before []) (next.map (before ++ ·)) := by
  cases hyields with
  | @ends found reason hends =>
      rw [← result_append]
      cases reason with
      | none =>
          exact .ends (Reaches.ends (hends.reaches_frame before [])
            (.stop .done))
      | some halt => exact .ends (hends.frame before [])
  | endless hnever => exact .endless_frame before [] hnever

/-- Two agendas in a row yield the violations of both, or the failure of the
first one that fails. -/
theorem Yields.append (hparts : Yields ⟨depth, 0⟩ root ⟨parts, []⟩ first)
    (hrest : Yields ⟨depth, 0⟩ root ⟨rest, []⟩ next) :
    Yields ⟨depth, 0⟩ root ⟨parts ++ rest, []⟩ (first >>= fun found =>
      next.map (found ++ ·)) := by
  cases hparts with
  | @ends found reason hends =>
      cases reason with
      | none =>
          have hbehind := hrest.frame found
          simp only [Agenda.frame, List.append_nil] at hbehind
          exact (hends.reaches_frame [] rest).yields_iff.2 hbehind
      | some halt =>
          have hframed := Yields.ends (hends.frame [] rest)
          cases halt with
          | errorLimit => exact absurd rfl hends.ne_errorLimit
          | _ => exact hframed
  | endless hnever => exact .endless_frame [] rest hnever

end Agenda

/-- Results in a row: all lists one behind the other, or the first failure. -/
def joined (results : List (Except ValidationFailure (List Violation))) :
    Except ValidationFailure (List Violation) :=
  results.foldr (fun first rest => first >>= fun found => rest.map (found ++ ·))
    (.ok [])

theorem joined_of_lists (lists : List (List Violation)) :
    joined (lists.map .ok) = .ok lists.flatten := by
  induction lists with
  | nil => rfl
  | cons list lists ih =>
      rw [joined, List.map_cons, List.foldr_cons, ← joined, ih]
      rfl

theorem joined_of_failure (before : List (List Violation))
    (failure : ValidationFailure)
    (behind : List (Except ValidationFailure (List Violation))) :
    joined (before.map .ok ++ .error failure :: behind) = .error failure := by
  induction before with
  | nil => rfl
  | cons list before ih =>
      rw [joined, List.map_cons, List.cons_append, List.foldr_cons,
        ← joined, ih]
      rfl

/-- Parts in a row yield their results in a row. -/
theorem Agenda.yields_joined {α : Type} {depth : Nat} {root : Schema}
    {items : List α} {part : α → Part}
    {outcome : α → Except ValidationFailure (List Violation)}
    (hitems : ∀ item ∈ items,
      Yields ⟨depth, 0⟩ root ⟨[part item], []⟩ (outcome item)) :
    Yields ⟨depth, 0⟩ root ⟨items.map part, []⟩
      (joined (items.map outcome)) := by
  induction items with
  | nil => exact .ends (.stop .done)
  | cons item items ih =>
      have hfirst := hitems item List.mem_cons_self
      have hrest := ih fun other hother =>
        hitems other (List.mem_cons_of_mem item hother)
      exact hfirst.append hrest

/-- The violation of an item, as one of the collection around it: one step
further down in the instance and, unless its path starts at a definition, in the
schema. -/
def Violation.inItem (keyword : Keyword) (step : String) (v : Violation) :
    Violation :=
  ⟨step :: v.instancePath,
    if v.schemaPath.head? = some Keyword.definitions.name then v.schemaPath
    else keyword.name :: v.schemaPath⟩

/-- The result on a collection, from the results on its items alone, each with
the step that leads to the item. -/
structure ItemByItem (keyword : Keyword)
    (items : List (String × Except ValidationFailure (List Violation)))
    (whole : Except ValidationFailure (List Violation)) : Prop where
  /-- Where every item has a list of violations, the collection has them one
  behind the other. -/
  lists : ∀ lists : List (String × List Violation),
    items = lists.map (fun (step, list) => (step, .ok list)) →
      whole = .ok (lists.flatMap fun (step, list) =>
        list.map (.inItem keyword step))
  /-- Otherwise it fails as the first item that fails. -/
  fails : ∀ (before : List (String × List Violation)) step failure behind,
    items = before.map (fun (step, list) => (step, .ok list)) ++
      (step, .error failure) :: behind →
      whole = .error failure
  /-- What is found in an item of the collection is what is found in the item
  alone. -/
  alone : ∀ found, whole = .ok found → ∀ item ∈ items, ∃ list,
    item.2 = .ok list ∧
    found.filter (fun v => v.instancePath.head? = some item.1) =
      list.map (.inItem keyword item.1)

theorem lists_or_fails
    (items : List (String × Except ValidationFailure (List Violation))) :
    (∃ lists : List (String × List Violation),
      items = lists.map fun (step, list) => (step, .ok list)) ∨
    ∃ (before : List (String × List Violation)) (step : String) (failure :
      ValidationFailure)
      (behind : List (String × Except ValidationFailure (List Violation))),
      items = before.map (fun (step, list) => (step, .ok list)) ++
        (step, .error failure) :: behind := by
  induction items with
  | nil => exact .inl ⟨[], rfl⟩
  | cons item items ih =>
      obtain ⟨step, result⟩ := item
      cases result with
      | error failure => exact .inr ⟨[], step, failure, items, rfl⟩
      | ok list =>
          rcases ih with ⟨lists, rfl⟩ | ⟨before, other, failure, behind, rfl⟩
          · exact .inl ⟨(step, list) :: lists, rfl⟩
          · exact .inr ⟨(step, list) :: before, other, failure, behind, rfl⟩

/-- The violations of the item that a step leads to, out of those of all
items. -/
theorem filter_inItem {keyword : Keyword}
    {lists : List (String × List Violation)}
    (hnodup : (lists.map Prod.fst).Nodup) {step : String}
    {list : List Violation} (hmem : (step, list) ∈ lists) :
    (lists.flatMap fun (step, list) =>
      list.map (Violation.inItem keyword step)).filter
      (fun v => v.instancePath.head? = some step) =
        list.map (.inItem keyword step) := by
  have hkept : ∀ list : List Violation,
      (list.map (Violation.inItem keyword step)).filter
      (fun v => v.instancePath.head? = some step) =
        list.map (.inItem keyword step) := by
    intro list
    simp [List.filter_eq_self, Violation.inItem]
  have hothers : ∀ (other : String) (list : List Violation), other ≠ step →
      (list.map (Violation.inItem keyword other)).filter
        (fun v => v.instancePath.head? = some step) = [] := by
    intro other list hother
    simp [List.filter_eq_nil_iff, Violation.inItem, hother]
  induction lists with
  | nil => cases hmem
  | cons first lists ih =>
      obtain ⟨other, others⟩ := first
      rw [List.map_cons, List.nodup_cons] at hnodup
      rw [List.flatMap_cons, List.filter_append]
      rcases List.mem_cons.1 hmem with heq | hmem
      · cases heq
        have hrest : (lists.flatMap fun (step, list) =>
            list.map (Violation.inItem keyword step)).filter
              (fun v => v.instancePath.head? = some step) = [] := by
            rw [List.filter_flatMap, List.flatMap_eq_nil_iff]
            rintro ⟨other, others⟩ hother
            have hstep := List.mem_map_of_mem (f := Prod.fst) hother
            exact hothers other others fun heq => hnodup.1 (heq ▸ hstep)
        rw [hkept, hrest, List.append_nil]
      · have hstep := List.mem_map_of_mem (f := Prod.fst) hmem
        have hne : other ≠ step := fun heq => hnodup.1 (heq ▸ hstep)
        rw [hothers other others hne, List.nil_append, ih hnodup.2 hmem]

/-- Results in a row, each one step further down, are those of a collection. -/
theorem itemByItem_joined (keyword : Keyword)
    {items : List (String × Except ValidationFailure (List Violation))}
    (hnodup : (items.map Prod.fst).Nodup) :
    ItemByItem keyword items
      (joined (items.map fun (step, result) =>
        result.map (List.map (.inItem keyword step)))) := by
  have hlists : ∀ lists : List (String × List Violation),
      items = lists.map (fun (step, list) => (step, .ok list)) →
        joined (items.map fun (step, result) =>
          result.map (List.map (.inItem keyword step))) =
            .ok (lists.flatMap fun (step, list) =>
              list.map (.inItem keyword step)) := by
    rintro lists rfl
    rw [List.flatMap_def, ← joined_of_lists, List.map_map, List.map_map]
    rfl
  have hfails : ∀ (before : List (String × List Violation)) step failure behind,
      items = before.map (fun (step, list) => (step, .ok list)) ++
        (step, .error failure) :: behind →
        joined (items.map fun (step, result) =>
          result.map (List.map (.inItem keyword step))) =
            .error failure := by
    rintro before step failure behind rfl
    rw [List.map_append, List.map_map, List.map_cons]
    have hfailure := joined_of_failure
      (before.map fun (step, list) =>
        list.map (Violation.inItem keyword step)) failure
      (behind.map fun (step, result) =>
        result.map (List.map (.inItem keyword step)))
    rw [List.map_map] at hfailure
    exact hfailure
  refine ⟨hlists, hfails, ?_⟩
  intro found hfound item hitem
  rcases lists_or_fails items with
    ⟨lists, rfl⟩ | ⟨before, step, failure, behind, hitems⟩
  · cases (hlists lists rfl).symm.trans hfound
    obtain ⟨⟨step, list⟩, hlist, rfl⟩ := List.mem_map.1 hitem
    refine ⟨list, rfl, filter_inItem ?_ hlist⟩
    rw [List.map_map] at hnodup
    exact hnodup
  · cases (hfails before step failure behind hitems).symm.trans hfound

section

variable {keyword : Keyword} {step : String}

def Place.inItem (keyword : Keyword) (step : String) (place : Place) : Place :=
  ⟨step :: place.instancePath,
    if place.schemaPath.head? = some Keyword.definitions.name then
      place.schemaPath
    else keyword.name :: place.schemaPath, place.depth⟩

/-- The node of an item in a collection, and the node that is visited when the
item is validated alone: it has the same form, and its place is moved into the
collection. -/
structure Node.InItem (keyword : Keyword) (step : String)
    (n n' : Node) : Prop where
  place : n'.place = n.place.inItem keyword step
  form : n'.schema.form = n.schema.form
  value : n'.value = n.value
  tag : n'.tag = n.tag

theorem Node.parts_inItem (root : Schema) (n : Node) :
    (n.relocate (Place.inItem keyword step)).parts root =
      (n.parts root).map (Part.relocate (Place.inItem keyword step)) := by
  have houtside : Place.Compatible fun place : Place =>
      ⟨step :: place.instancePath, keyword.name :: place.schemaPath,
        place.depth⟩ :=
    ⟨fun _ _ => rfl, fun _ _ => rfl⟩
  have hinside : Place.Compatible fun place : Place =>
      { place with instancePath := step :: place.instancePath } :=
        ⟨fun _ _ => rfl, fun _ _ => rfl⟩
  apply parts_relocate_of_frames houtside hinside
  · intro place
    by_cases hstart : place.schemaPath.head? = some Keyword.definitions.name
    · simp [Place.inItem, hstart]
    · simp [Place.inItem, hstart]
  · intro name place
    rfl

/-- An item is validated in a collection as it is alone. -/
theorem lockStep_inItem (limits : Limits) {root root' : Schema}
    (hdefinitions : root'.definitions = root.definitions) :
    LockStep (Node.InItem keyword step) (.inItem keyword step) limits
      root root' := by
  constructor
  · intro n n' hpair
    simp only [Node.tooDeep, hpair.form, hpair.place, Place.inItem]
  · intro n n' hpair
    rw [Node.parts_congr (n := n.relocate (Place.inItem keyword step))
      hdefinitions hpair.form
      hpair.place hpair.value hpair.tag, Node.parts_inItem,
      List.forall₂_map_right_iff,
      List.forall₂_same]
    intro part _
    cases part with
    | clash place => exact .clash rfl
    | dangling name => exact .dangling
    | node c => exact .node ⟨rfl, rfl, rfl, rfl⟩

end

section

variable {definitions : Option (KeyMap Schema)} {form collection : Form}
  {value : Json} (depth : Nat)

/-- An item of a collection yields what it yields alone, one step further
down. -/
theorem yields_inItem (keyword : Keyword) (step : String) (item : Json) :
    Agenda.Yields ⟨depth, 0⟩ ⟨definitions, collection⟩
      ⟨[.node ⟨(Place.root.underSchema keyword.name).underInstance step,
        .ofForm form, item, none⟩], []⟩
      ((validate ⟨depth, 0⟩ ⟨definitions, form⟩ item).map
        (List.map (.inItem keyword step))) := by
  have hlock : LockStep (Node.InItem keyword step) (.inItem keyword step)
      ⟨depth, 0⟩
      ⟨definitions, form⟩ ⟨definitions, collection⟩ := lockStep_inItem _ rfl
  refine hlock.yields ⟨.cons (.node ?_) .nil, .nil⟩
    (Agenda.yields_validate _ _ item)
  exact ⟨rfl, rfl, rfl, rfl⟩

/-- A collection yields what its items yield alone, in a row. -/
theorem validate_eq_joined (keyword : Keyword) (items : List (String × Json))
    (hform : ∀ name, collection ≠ .ref name)
    (hparts : (Node.start ⟨definitions, collection⟩ value).parts
        ⟨definitions, collection⟩ = items.map fun (step, item) =>
        .node ⟨(Place.root.underSchema keyword.name).underInstance step,
          .ofForm form, item, none⟩) :
    validate ⟨depth, 0⟩ ⟨definitions, collection⟩ value =
      joined (items.map fun (step, item) =>
        (validate ⟨depth, 0⟩ ⟨definitions, form⟩ item).map
          (List.map (.inItem keyword step))) := by
  have hdeep : (Node.start ⟨definitions, collection⟩ value).tooDeep ⟨depth, 0⟩ =
      false := by
    cases collection with
    | ref name => exact absurd rfl (hform name)
    | _ => rfl
  have henter : Agenda.Step ⟨depth, 0⟩ ⟨definitions, collection⟩
      (.start ⟨definitions, collection⟩ value)
      ⟨(Node.start ⟨definitions, collection⟩ value).parts
        ⟨definitions, collection⟩ ++ [], []⟩ :=
    .enter hdeep
  rw [hparts, List.append_nil] at henter
  apply (Agenda.yields_validate _ _ _).unique
  refine (Agenda.Reaches.yields_iff (.single henter)).2
    (Agenda.yields_joined ?_)
  rintro ⟨step, item⟩ -
  exact yields_inItem depth keyword step item

/-- A collection whose parts are its items, each behind a step of its own, is
validated item by item. -/
theorem itemByItem_of_parts (keyword : Keyword) (items : List (String × Json))
    (hform : ∀ name, collection ≠ .ref name)
    (hparts : (Node.start ⟨definitions, collection⟩ value).parts
        ⟨definitions, collection⟩ = items.map fun (step, item) =>
        .node ⟨(Place.root.underSchema keyword.name).underInstance step,
          .ofForm form, item, none⟩)
    (hnodup : (items.map Prod.fst).Nodup) :
    ItemByItem keyword
      (items.map fun (step, item) =>
        (step, validate ⟨depth, 0⟩ ⟨definitions, form⟩ item))
      (validate ⟨depth, 0⟩ ⟨definitions, collection⟩ value) := by
  rw [validate_eq_joined depth keyword items hform hparts]
  have hsteps : ((items.map fun (step, item) =>
      (step, validate ⟨depth, 0⟩ ⟨definitions, form⟩ item)).map
      Prod.fst).Nodup := by
    rw [List.map_map]
    exact hnodup
  have hjoined := itemByItem_joined keyword hsteps
  rw [List.map_map] at hjoined
  exact hjoined

end

/-- A collection is validated item by item, be it an array or an object: its
violations are those of its items in order, or its failure that of the first
item that fails; what is found in an item does not depend on the others. -/
theorem validate_collection (definitions : Option (KeyMap Schema)) (form : Form)
    (depth : Nat) :
    (∀ items : List Json, ItemByItem .elements
      (items.zipIdx.map fun (item, index) =>
        (Digits.text index, validate ⟨depth, 0⟩ ⟨definitions, form⟩ item))
      (validate ⟨depth, 0⟩ ⟨definitions, .elements (.ofForm form)⟩
        (.arr items))) ∧
    ∀ members : KeyMap Json, ItemByItem .values
      (members.toList.map fun (key, member) =>
        (key, validate ⟨depth, 0⟩ ⟨definitions, form⟩ member))
      (validate ⟨depth, 0⟩ ⟨definitions, .values (.ofForm form)⟩
        (.obj members)) := by
  constructor
  · intro items
    have hnodup : ((items.zipIdx.map fun (item, index) =>
        (Digits.text index, item)).map Prod.fst).Nodup := by
      have hsteps : (items.zipIdx.map fun (item, index) =>
          (Digits.text index, item)).map Prod.fst =
            (items.zipIdx.map Prod.snd).map Digits.text := by
          rw [List.map_map, List.map_map]
          rfl
      rw [hsteps, List.zipIdx_map_snd]
      exact List.Nodup.map (fun _ _ => Digits.text_injective) List.nodup_range'
    have hparts : (Node.start ⟨definitions, .elements (.ofForm form)⟩
        (.arr items)).parts
        ⟨definitions, .elements (.ofForm form)⟩ =
          (items.zipIdx.map fun (item, index) => (Digits.text index, item)).map
            fun (step, item) =>
              .node
                ⟨(Place.root.underSchema Keyword.elements.name).underInstance
                  step, .ofForm form,
                item, none⟩ := by
      rw [List.map_map]
      rfl
    have hitems := itemByItem_of_parts depth .elements _ (by simp) hparts hnodup
    rw [List.map_map] at hitems
    exact hitems
  · intro members
    exact itemByItem_of_parts depth .values members.toList
      (by simp) rfl members.nodup_keys

/-- Trees by their names. -/
def namedTrees : Form := .values (.ofForm (.ref "tree"))

def oneOak : Json := .object [("oak", .object [])]

/-- Of three groves, the first has a tree without a label, the second a tree
that is too high for the limit, and the third is none. -/
theorem validate_collection_groves :
    validate ⟨2, 0⟩ ⟨labelledTree.definitions, .elements (.ofForm namedTrees)⟩
      (.arr [oneOak, .null]) =
        .ok [⟨["0", "oak"], ["definitions", "tree", "properties", "label"]⟩,
          ⟨["1"], ["elements", "values"]⟩] ∧
      validate ⟨2, 0⟩ ⟨labelledTree.definitions, .elements (.ofForm namedTrees)⟩
          (.arr [oneOak, .object [("elm", mislabelledTree)], .null]) =
            .error (.maxDepthExceeded 2) ∧
      validate ⟨2, 0⟩ ⟨labelledTree.definitions, .values (.ofForm namedTrees)⟩
          (.object [("west", .null), ("east", oneOak)]) =
        .ok [⟨["east", "oak"], ["definitions", "tree", "properties", "label"]⟩,
          ⟨["west"], ["values", "values"]⟩] := by
  obtain ⟨harrays, hobjects⟩ :=
    validate_collection labelledTree.definitions namedTrees 2
  refine ⟨?_, ?_, ?_⟩
  · exact (harrays _).lists
      [("0", [⟨["oak"], ["definitions", "tree", "properties", "label"]⟩]),
      ("1", [⟨[], ["values"]⟩])] rfl
  · exact (harrays _).fails
      [("0", [⟨["oak"], ["definitions", "tree", "properties", "label"]⟩])]
      "1" _ _ rfl
  · exact (hobjects _).lists
      [("east", [⟨["oak"], ["definitions", "tree", "properties", "label"]⟩]),
      ("west", [⟨[], ["values"]⟩])] rfl

end SchemaForms
