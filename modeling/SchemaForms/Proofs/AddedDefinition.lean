import SchemaForms.Session
import SchemaForms.Proofs.Agenda
import SchemaForms.Proofs.Breaches
/-!
A definition that is added.  When a root gets a definition of a name that it has
not defined before, the refs to this name are resolved, wherever they stand, and
nothing else becomes of what was there.  So the issues are those from before
without the ones of such refs, and in between those of the new definition; and a
validation that came to an end without looking up the name is not changed at all
(`added_definition_resolves_refs`).
-/

namespace SchemaForms

namespace Entries

variable {α : Type} {lo : Option String} {key : String}

/-- A new key is put between the keys below it and the keys above it. -/
theorem exists_toList_insertAbove (m : Entries α lo) (above : Above lo key)
    (value : α) (hfresh : m.get? key = none) :
    ∃ before behind, m.toList = before ++ behind ∧
      (m.insertAbove key value above).toList = before ++ (key, value) ::
        behind ∧
      (∀ entry ∈ before, entry.1 < key) ∧ ∀ entry ∈ behind, key < entry.1 := by
  induction m with
  | nil => exact ⟨[], [], rfl, rfl, by simp, by simp⟩
  | cons k hk v rest ih =>
      by_cases hsame : key = k
      · rw [get?_cons, if_pos hsame] at hfresh
        cases hfresh
      · rw [get?_cons, if_neg hsame] at hfresh
        by_cases hbefore : Above (some key) k
        · refine ⟨[], (k, v) :: rest.toList, rfl, ?_, by simp, ?_⟩
          · rw [insertAbove, dif_pos hbefore]
            rfl
          · intro entry hentry
            rcases List.mem_cons.mp hentry with rfl | hentry
            · exact hbefore
            · exact String.lt_trans hbefore (above_of_mem_toList hentry)
        · have hafter : Above (some k) key := by
            by_contra hnot
            exact hsame (String.le_antisymm hnot hbefore)
          obtain ⟨before, behind, hrest, hinsert, hlt, hgt⟩ := ih hafter hfresh
          refine ⟨(k, v) :: before, behind, ?_, ?_, ?_, hgt⟩
          · rw [toList_cons, hrest, List.cons_append]
          · rw [insertAbove, dif_neg hbefore, dif_neg hsame, toList_cons,
              hinsert, List.cons_append]
          · intro entry hentry
            rcases List.mem_cons.mp hentry with rfl | hentry
            · exact hafter
            · exact hlt entry hentry

def lower (m : Entries α lo) (key : String) : List (String × α) :=
  m.toList.filter fun entry => entry.1 < key

def higher (m : Entries α lo) (key : String) : List (String × α) :=
  m.toList.filter fun entry => key < entry.1

theorem toList_insert_of_fresh (m : KeyMap α) (value : α)
    (hfresh : m.get? key = none) :
    m.toList = m.lower key ++ m.higher key ∧
      (KeyMap.insert m key value).toList = m.lower key ++ (key, value) ::
        m.higher key := by
  obtain ⟨before, behind, hm, hinsert, hlt, hgt⟩ :=
    m.exists_toList_insertAbove trivial value hfresh
  have hlower : m.lower key = before := by
    rw [lower, hm, List.filter_append, List.filter_eq_self.mpr,
      List.filter_eq_nil_iff.mpr, List.append_nil]
    · intro entry hentry
      rw [decide_eq_true_iff]
      exact String.lt_asymm (hgt entry hentry)
    · simpa using hlt
  have hhigher : m.higher key = behind := by
    rw [higher, hm, List.filter_append, List.filter_eq_nil_iff.mpr,
      List.filter_eq_self.mpr, List.nil_append]
    · simpa using hgt
    · intro entry hentry
      rw [decide_eq_true_iff]
      exact String.lt_asymm (hlt entry hentry)
  rw [hlower, hhigher]
  exact ⟨hm, hinsert⟩

end Entries

/-- Some issues without those of refs to a name. -/
def SchemaIssue.besides (name : String) (issues : List SchemaIssue) :
    List SchemaIssue :=
  issues.filter fun issue => issue.fault ≠ .unknownRef name

theorem SchemaIssue.besides_append (name : String)
    (issues rest : List SchemaIssue) :
    besides name (issues ++ rest) = besides name issues ++ besides name rest :=
  List.filter_append ..

theorem SchemaIssue.besides_of_forall_ne {name : String}
    {issues : List SchemaIssue} (hissues : ∀ issue ∈ issues,
      issue.fault ≠ .unknownRef name) : besides name issues = issues := by
  rw [besides, List.filter_eq_self]
  intro issue hissue
  simpa using hissues issue hissue

section

variable {name : String} {isDefined isDefined' : String → Bool}
  {path : SchemaPath}

/-- With another set of defined names, a schema keeps its issues besides those
of refs to a name. -/
def Schema.Keeps (name : String) (isDefined isDefined' : String → Bool)
    (path : SchemaPath) (s : Schema) : Prop :=
  s.issuesBelow isDefined' path = SchemaIssue.besides name
    (s.issuesBelow isDefined path)

theorem entryIssues_besides {schemas : KeyMap Schema}
    (hschemas : ∀ key s, schemas.get? key = some s →
      s.Keeps name isDefined isDefined' (path ++ [key])) :
    entryIssues isDefined' path schemas =
      SchemaIssue.besides name (entryIssues isDefined path schemas) := by
  rw [entryIssues_eq_flatMap, entryIssues_eq_flatMap, SchemaIssue.besides,
    List.filter_flatMap]
  apply List.flatMap_congr
  rintro ⟨key, s⟩ hentry
  exact hschemas key s (Entries.get?_eq_some_iff.mpr hentry)

theorem optionalIssues_besides {schemas : Option (KeyMap Schema)}
    (hschemas : ∀ entries key s, schemas = some entries →
      entries.get? key = some s →
      s.Keeps name isDefined isDefined' (path ++ [key])) :
    optionalIssues isDefined' path schemas =
      SchemaIssue.besides name (optionalIssues isDefined path schemas) := by
  cases schemas with
  | none => rfl
  | some entries =>
      exact entryIssues_besides fun key s => hschemas entries key s rfl

theorem issuesOfBranch_besides {tag : String} {s : Schema}
    (hs : s.Keeps name isDefined isDefined' path) :
    s.issuesOfBranch isDefined' tag path =
      SchemaIssue.besides name (s.issuesOfBranch isDefined tag path) := by
  have hfault : ∀ issue ∈ (s.form.branchFault? tag).toList.map (⟨path, ·⟩ : _ →
      SchemaIssue),
      issue.fault ≠ .unknownRef name := by
    intro issue hissue
    obtain ⟨fault, hfault, rfl⟩ := List.mem_map.mp hissue
    rw [Option.mem_toList] at hfault
    rcases Form.branchFault?_eq_some_iff.mp hfault with
      ⟨-, rfl⟩ | ⟨_, _, _, -, -, rfl⟩ <;> simp
  rw [Schema.issuesOfBranch, Schema.issuesOfBranch, SchemaIssue.besides_append,
    hs, SchemaIssue.besides_of_forall_ne hfault]

variable
  (hdefined : ∀ other, isDefined' other = (other == name || isDefined other))

include hdefined

theorem Form.issues_besides {form : Form}
    (hbelow : ∀ tokens s, form.Holds tokens s →
      s.Keeps name isDefined isDefined' (path ++ tokens)) :
    form.issues isDefined' path = SchemaIssue.besides name
      (form.issues isDefined path) := by
  cases form with
  | empty => rfl
  | type type => rfl
  | ref other =>
      rw [issues, issues, hdefined]
      by_cases hother : other = name
      · by_cases hknown :
          isDefined name = true <;> simp [hother, hknown, SchemaIssue.besides]
      · by_cases hknown :
          isDefined other = true <;> simp [hother, hknown, SchemaIssue.besides]
  | enum values =>
      rw [issues, issues]
      split
      · simp [SchemaIssue.besides]
      · rfl
  | elements s => exact hbelow _ s .elements
  | values s => exact hbelow _ s .values
  | properties required optional additional =>
      have hshared : ∀ issue ∈ (sharedKeys required optional).map
            (fun key => (⟨path, .overlappingProperties key⟩ : SchemaIssue)),
          issue.fault ≠ .unknownRef name := by
        intro issue hissue
        obtain ⟨key, -, rfl⟩ := List.mem_map.mp hissue
        simp
      have hrequired :
          optionalIssues isDefined' (path.under .properties) required =
          SchemaIssue.besides name
            (optionalIssues isDefined (path.under .properties) required) := by
        apply optionalIssues_besides
        rintro entries key s rfl hkey
        rw [SchemaPath.under, List.append_assoc]
        exact hbelow _ s (.required hkey)
      have hoptional :
          optionalIssues isDefined' (path.under .optionalProperties) optional =
          SchemaIssue.besides name
            (optionalIssues isDefined (path.under .optionalProperties)
              optional) := by
        apply optionalIssues_besides
        rintro entries key s rfl hkey
        rw [SchemaPath.under, List.append_assoc]
        exact hbelow _ s (.optional hkey)
      rw [issues, issues, SchemaIssue.besides_append,
        SchemaIssue.besides_append, hrequired, hoptional,
        SchemaIssue.besides_of_forall_ne hshared]
  | discriminator tag mapping =>
      rw [issues, issues, branchIssues_eq_flatMap, branchIssues_eq_flatMap,
        SchemaIssue.besides, List.filter_flatMap]
      apply List.flatMap_congr
      rintro ⟨key, s⟩ hentry
      have hbranch := hbelow _ s (.branch (Entries.get?_eq_some_iff.mpr hentry))
      simp only [SchemaPath.under, List.append_assoc, List.cons_append,
        List.nil_append]
      exact issuesOfBranch_besides hbranch

/-- One more defined name resolves the refs to it and leaves all other
issues. -/
theorem Schema.keeps_of_defined (s : Schema) (path : SchemaPath) :
    s.Keeps name isDefined isDefined' path := by
  induction s using holdsInduction generalizing path with
  | step s ih =>
      have hform := Form.issues_besides hdefined fun tokens t hholds =>
        ih tokens t hholds (path ++ tokens)
      obtain ⟨definitions, form⟩ := s
      rw [Keeps, issuesBelow, issuesBelow, SchemaIssue.besides_append, hform]
      congr 1
      cases definitions with
      | none => rfl
      | some definitions => simp [SchemaIssue.besides]

end

namespace Schema

variable {s : Schema} {name : String}

def issuesOfDefinitions (isDefined : String → Bool)
    (definitions : List (String × Schema)) : List SchemaIssue :=
  definitions.flatMap fun (name, d) =>
    d.issuesBelow isDefined [Keyword.definitions.name, name]

/-- The issues that are found before the definition of a name, had a root this
definition: those of its form and of the definitions of lower names. -/
def issuesBefore (s : Schema) (name : String) : List SchemaIssue :=
  s.form.issues s.isDefined [] ++
    issuesOfDefinitions s.isDefined ((s.definitions.getD .nil).lower name)

/-- The issues that are found behind the definition of a name, had a root this
definition: those of the definitions of higher names. -/
def issuesBehind (s : Schema) (name : String) : List SchemaIssue :=
  issuesOfDefinitions s.isDefined ((s.definitions.getD .nil).higher name)

def issuesAt (s : Schema) (name : String) (d : Schema) : List SchemaIssue :=
  d.issuesBelow s.isDefined [Keyword.definitions.name, name]

theorem issues_eq_issuesOfDefinitions (s : Schema) :
    s.issues = s.form.issues s.isDefined [] ++
      issuesOfDefinitions s.isDefined (s.definitions.getD .nil).toList := by
  obtain ⟨definitions, form⟩ := s
  cases definitions with
  | none => rfl
  | some definitions =>
      rw [issues, optionalIssues, entryIssues_eq_flatMap]
      rfl

theorem definition?_define (s : Schema) (name other : String) (d : Schema) :
    (s.define name d).definition? other = if other = name then some d
      else s.definition? other := by
  obtain ⟨definitions, form⟩ := s
  cases definitions <;> simp [define, definition?]

theorem isDefined_define (s : Schema) (name other : String) (d : Schema) :
    (s.define name d).isDefined other =
      (other == name || s.isDefined other) := by
  rw [isDefined, isDefined, definition?_define]
  by_cases hother : other = name <;> simp [hother]

theorem get?_of_fresh (hfresh : s.definition? name = none) :
    (s.definitions.getD .nil).get? name = none := by
  obtain ⟨definitions, form⟩ := s
  cases definitions with
  | none => rfl
  | some definitions => exact hfresh

theorem issuesOfDefinitions_define (definitions : List (String × Schema))
    (d : Schema) :
    issuesOfDefinitions (s.define name d).isDefined definitions =
      SchemaIssue.besides name
        (issuesOfDefinitions s.isDefined definitions) := by
  rw [issuesOfDefinitions, issuesOfDefinitions, SchemaIssue.besides,
    List.filter_flatMap]
  apply List.flatMap_congr
  rintro ⟨other, definition⟩ -
  exact keeps_of_defined (s.isDefined_define name · d) definition _

theorem issues_of_fresh (hfresh : s.definition? name = none) :
    s.issues = s.issuesBefore name ++ s.issuesBehind name := by
  obtain ⟨htoList, -⟩ :=
    Entries.toList_insert_of_fresh _ s (get?_of_fresh hfresh)
  rw [issues_eq_issuesOfDefinitions, htoList, issuesBefore, issuesBehind,
    List.append_assoc, issuesOfDefinitions, List.flatMap_append]
  rfl

/-- The issues of a root with a definition of a new name. -/
theorem issues_define (hfresh : s.definition? name = none) (d : Schema) :
    (s.define name d).issues = SchemaIssue.besides name (s.issuesBefore name) ++
      (s.define name d).issuesAt name d ++ SchemaIssue.besides name
        (s.issuesBehind name) := by
  obtain ⟨-, hinsert⟩ :=
    Entries.toList_insert_of_fresh _ d (get?_of_fresh hfresh)
  have hdefinitions : ((s.define name d).definitions.getD .nil).toList =
      (s.definitions.getD .nil).lower name ++ (name, d) ::
        (s.definitions.getD .nil).higher name :=
    hinsert
  have hform : (s.define name d).form.issues (s.define name d).isDefined [] =
      SchemaIssue.besides name (s.form.issues s.isDefined []) := by
    apply Form.issues_besides (s.isDefined_define name · d)
    intro tokens t _
    exact keeps_of_defined (s.isDefined_define name · d) t _
  have happend : issuesOfDefinitions (s.define name d).isDefined
        ((s.definitions.getD .nil).lower name ++ (name, d) ::
          (s.definitions.getD .nil).higher name) =
      issuesOfDefinitions (s.define name d).isDefined
          ((s.definitions.getD .nil).lower name) ++
        ((s.define name d).issuesAt name d ++
          issuesOfDefinitions (s.define name d).isDefined
            ((s.definitions.getD .nil).higher name)) := by
    rw [issuesOfDefinitions, List.flatMap_append, List.flatMap_cons]
    rfl
  rw [issues_eq_issuesOfDefinitions, hdefinitions, happend, hform,
    issuesOfDefinitions_define, issuesOfDefinitions_define, issuesBefore,
    issuesBehind, SchemaIssue.besides_append]
  simp only [List.append_assoc]

end Schema

namespace Node

variable {root root' : Schema} {n n' : Node}

/-- Of the definitions of a root, a node looks at no other one than that of its
ref. -/
theorem parts_eq_of_lookup (hlookup : ∀ name, n.schema.form = .ref name →
    root'.definition? name = root.definition? name) : n.parts root' =
    n.parts root := by
  obtain ⟨place, ⟨definitions, form⟩, value, tag⟩ := n
  cases form with
  | ref name => simp only [parts, hlookup name rfl]
  | _ => cases value <;> rfl

end Node

namespace Agenda

variable {limits : Limits} {s : Schema} {name : String} {a : Agenda}
  {n n' : Node} {todo : List Part} {found behind : List Violation}
  {reason : Option Halt}

/-- Which definitions a node itself carries does not matter for what becomes of
it. -/
theorem Ends.of_form
    (hends : Ends limits s ⟨.node n :: todo, found⟩ behind reason)
    (hform : n'.schema.form = n.schema.form) (hplace : n'.place = n.place)
    (hvalue : n'.value = n.value) (htag : n'.tag = n.tag) :
    Ends limits s ⟨.node n' :: todo, found⟩ behind reason := by
  have hsame : n'.tooDeep limits = n.tooDeep limits := by
    simp only [Node.tooDeep, hform, hplace]
  cases hdeep : n.tooDeep limits with
  | true =>
      obtain ⟨rfl, rfl⟩ := hends.unique (.stop (.depthExceeded hdeep))
      exact .stop (.depthExceeded (hsame.trans hdeep))
  | false =>
      have hrest := hends.of_step (.enter hdeep)
      rw [← Node.parts_congr rfl hform hplace hvalue htag] at hrest
      exact .step (.enter (hsame.trans hdeep)) hrest

/-- A validation that does not end at a ref to a name that is not defined goes
the same way when the name is defined: every ref that it has come to has another
name. -/
theorem Ends.define (hends : Ends limits s a found reason)
    (hfresh : s.definition? name = none)
    (hreason : reason ≠ some (.unresolvedRef name)) (d : Schema) :
    Ends limits (s.define name d) a found reason := by
  induction hends with
  | stop hstop => exact .stop hstop
  | step hstep hends ih =>
      have hdefine := ih hreason
      cases hstep with
      | report hlimit => exact .step (.report hlimit) hdefine
      | @enter n todo found hdeep =>
          have hlookup : ∀ other, n.schema.form = .ref other →
              (s.define name d).definition? other = s.definition? other := by
            intro other hform
            rw [Schema.definition?_define, if_neg]
            intro hother
            -- Otherwise the validation would end at this ref.
            rw [Node.parts_dangling hform (hother ▸ hfresh), hother] at hends
            exact hreason (hends.unique (.stop .unresolvedRef)).2
          rw [← Node.parts_eq_of_lookup hlookup] at hdefine
          exact .step (.enter hdeep) hdefine

end Agenda

theorem validate_define {limits : Limits} {s : Schema} {name : String}
    {value : Json} (hfresh : s.definition? name = none)
    (hreturns : validate limits s value ≠ .error .endless)
    (hresolved : validate limits s value ≠ .error (.unresolvedRef name))
    (d : Schema) :
    validate limits (s.define name d) value = validate limits s value := by
  obtain ⟨found, reason, hends, hresult⟩ := Agenda.ends_of_validate hreturns
  have hreason : reason ≠ some (.unresolvedRef name) := by
    intro hreason
    apply hresolved
    rw [hresult, Agenda.result_eq_unresolvedRef_iff]
    exact hreason
  have hdefine := hends.define hfresh hreason d
  have hstart : Agenda.Ends limits (s.define name d)
      (Agenda.start (s.define name d) value) found
      reason := hdefine.of_form rfl rfl rfl rfl
  rw [Agenda.validate_of_ends hstart, hresult]

/-- A definition that is added to a root resolves the refs to its name and
changes nothing else.  The issues are those from before but for those of such
refs, with the issues of the new definition where its name stands in the order;
so if it has none there are no more issues than before, and a root without
issues has none then exactly if the new definition has none.  A validation that
came to an end, and not at a ref to the name, has the same result. -/
theorem added_definition_resolves_refs {s : Schema} {name : String}
    (hfresh : s.definition? name = none) (d : Schema) :
    s.issues = s.issuesBefore name ++ s.issuesBehind name ∧
      (s.define name d).issues = SchemaIssue.besides name
          (s.issuesBefore name) ++
        (s.define name d).issuesAt name d ++ SchemaIssue.besides name
          (s.issuesBehind name) ∧
      ((s.define name d).issuesAt name d = [] →
        (s.define name d).issues.length ≤ s.issues.length) ∧
      (s.check = .ok () →
        ((s.define name d).check = .ok () ↔
          (s.define name d).issuesAt name d = [])) ∧
      ∀ limits value, validate limits s value ≠ .error .endless →
        validate limits s value ≠ .error (.unresolvedRef name) →
        validate limits (s.define name d) value = validate limits s value := by
  have hissues := Schema.issues_of_fresh hfresh
  have hdefine := Schema.issues_define hfresh d
  refine ⟨hissues, hdefine, ?_, ?_, ?_⟩
  · intro hblock
    have hbefore : (SchemaIssue.besides name (s.issuesBefore name)).length ≤
        (s.issuesBefore name).length := List.length_filter_le ..
    have hbehind : (SchemaIssue.besides name (s.issuesBehind name)).length ≤
        (s.issuesBehind name).length := List.length_filter_le ..
    rw [hdefine, hissues, hblock, List.append_nil, List.length_append,
      List.length_append]
    omega
  · intro hcheck
    rw [Schema.check_eq_ok_iff, hissues, List.append_eq_nil_iff] at hcheck
    rw [Schema.check_eq_ok_iff, hdefine, hcheck.1, hcheck.2]
    simp [SchemaIssue.besides]
  · intro limits value hreturns hresolved
    exact validate_define hfresh hreturns hresolved d

/-- Records, in which two refs point to a name that is not defined, and one
definition has an issue of its own. -/
def unfinishedRecord : Schema :=
  ⟨some (KeyMap.ofList
    [("colour", .ofForm (.enum .nil)),
      ("list", .ofForm (.elements (.ofForm (.ref "name"))))]),
    .properties none (some (KeyMap.ofList
      [("id", .ofForm (.type .uint8)), ("title", .ofForm (.ref "name"))]))
      false⟩

/-- A definition that refers to itself and to another name that is not
defined. -/
def nestedName : Schema :=
  .ofForm (.properties (some (KeyMap.ofList [("first", .ofForm (.ref "word"))]))
    (some (KeyMap.ofList [("next", .ofForm (.ref "name"))])) false)

/-- The refs to the name are resolved, the one in its own definition too. -/
theorem added_definition_resolves_refs_unfinishedRecord :
    unfinishedRecord.definition? "name" = none ∧
      unfinishedRecord.issues =
        [⟨["optionalProperties", "title"], .unknownRef "name"⟩,
          ⟨["definitions", "colour"], .emptyEnum⟩,
          ⟨["definitions", "list", "elements"], .unknownRef "name"⟩] ∧
      (unfinishedRecord.define "name" nestedName).issues =
        [⟨["definitions", "colour"], .emptyEnum⟩,
          ⟨["definitions", "name", "properties", "first"],
            .unknownRef "word"⟩] ∧
      validate ⟨1, 1⟩ (unfinishedRecord.define "name" nestedName)
        (.object [("id", .null), ("title", .null)]) =
        .ok [⟨["id"], ["optionalProperties", "id", "type"]⟩] := by
  have hfresh : unfinishedRecord.definition? "name" = none := by rfl
  obtain ⟨hissues, hdefine, -, -, hvalidate⟩ :=
    added_definition_resolves_refs hfresh nestedName
  have hresult : validate ⟨1, 1⟩ unfinishedRecord
        (.object [("id", .null), ("title", .null)]) =
      .ok [⟨["id"], ["optionalProperties", "id", "type"]⟩] := by rfl
  refine ⟨hfresh, ?_, ?_, ?_⟩
  · rw [hissues]
    decide +kernel
  · rw [hdefine]
    decide +kernel
  · rw [hvalidate] <;> simp [hresult]

end SchemaForms
