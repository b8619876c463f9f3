import SchemaForms.Proofs.Breaches
import SchemaForms.Proofs.Renaming
import Mathlib.Logic.Equiv.Basic
/-!
Definition names are opaque.  Under other names a schema has the same issues,
told with the new names, and by `validate_renamed` the same validations: a name
is only compared with other ones and told again, whatever it looks like
(`definition_names_are_opaque`).
-/

namespace SchemaForms

def SchemaFault.renamed (rename : String → String) : SchemaFault → SchemaFault
  | .unknownRef name => .unknownRef (rename name)
  | fault => fault

def SchemaIssue.renamed (rename : String → String) (issue : SchemaIssue) :
    SchemaIssue :=
  ⟨SchemaPath.renamed rename issue.path, issue.fault.renamed rename⟩

variable {rename : String → String}

/-- A path is told as another one, and so is every path that goes on from it
with a keyword of a form. -/
structure SchemaPath.Renames (rename : String → String)
    (path path' : SchemaPath) : Prop where
  here : SchemaPath.renamed rename path = path'
  below : ∀ keyword tokens, keyword ≠ Keyword.definitions →
    SchemaPath.renamed rename (path ++ keyword.name :: tokens) = path' ++
      keyword.name :: tokens

namespace SchemaPath.Renames

variable {path path' : SchemaPath}

theorem root : Renames rename [] [] := by
  refine ⟨rfl, ?_⟩
  intro keyword tokens hkeyword
  apply renamed_of_head?
  exact fun hhead => hkeyword (Keyword.name_injective (Option.some.inj hhead))

theorem definition (name : String) :
    Renames rename [Keyword.definitions.name, name] [Keyword.definitions.name,
      rename name] :=
  ⟨rfl, fun _ _ _ => rfl⟩

theorem concat (hpath : Renames rename path path') {keyword : Keyword}
    (hkeyword : keyword ≠ .definitions) (tokens : List String) :
    Renames rename (path ++ keyword.name :: tokens)
      (path' ++ keyword.name :: tokens) := by
  refine ⟨hpath.below keyword tokens hkeyword, ?_⟩
  intro next rest _
  rw [List.append_assoc, List.append_assoc]
  exact hpath.below keyword (tokens ++ next.name :: rest) hkeyword

end SchemaPath.Renames

theorem declares_renameRefs? (schemas : Option (KeyMap Schema)) (key : String) :
    declares (renameRefs? rename schemas) key = declares schemas key :=
  (declares_eq_of_related (related_renameRefs? schemas) key).symm

/-- As a branch, a form has the same fault under other names. -/
theorem Form.branchFault?_renameRefs (tag : String) (form : Form) :
    (form.renameRefs rename).branchFault? tag = form.branchFault? tag := by
  cases form with
  | properties required optional additional =>
      rw [renameRefs, branchFault?, branchFault?, declares_renameRefs?,
        declares_renameRefs?]
  | _ => rfl

theorem Form.renamed_of_branchFault? {form : Form} {tag : String}
    {fault : SchemaFault} (hfault : form.branchFault? tag = some fault) :
    fault.renamed rename = fault := by
  rcases branchFault?_eq_some_iff.mp hfault with
    ⟨-, rfl⟩ | ⟨_, _, _, -, -, rfl⟩ <;> rfl

theorem sharedKeys_renameRefs? (required optional : Option (KeyMap Schema)) :
    sharedKeys (renameRefs? rename required) (renameRefs? rename optional) =
      sharedKeys required optional := by
  cases required with
  | none => rfl
  | some required =>
      cases optional with
      | none => rfl
      | some optional =>
          have hkeys : required.keys = (renameEntries rename required).keys :=
            (related_renameEntries required).keys
          have hcontains :
              optional.contains = (renameEntries rename optional).contains :=
            funext (related_renameEntries optional).contains_eq
          rw [renameRefs?, renameRefs?, sharedKeys, sharedKeys,
            ← hkeys, ← hcontains]

section

variable {isDefined isDefined' : String → Bool} {path path' : SchemaPath}

/-- The issues of a schema at a path are told under other names, at the renamed
path. -/
def Schema.TellsRenamed (rename : String → String)
    (isDefined isDefined' : String → Bool) (s : Schema)
    (path path' : SchemaPath) : Prop :=
  (s.renameRefs rename).issuesBelow isDefined' path' =
    (s.issuesBelow isDefined path).map (SchemaIssue.renamed rename)

theorem entryIssues_renameEntries {schemas : KeyMap Schema}
    (hschemas : ∀ key s, schemas.get? key = some s →
      s.TellsRenamed rename isDefined isDefined' (path ++ [key])
        (path' ++ [key])) :
    entryIssues isDefined' path' (renameEntries rename schemas) =
      (entryIssues isDefined path schemas).map
        (SchemaIssue.renamed rename) := by
  rw [renameEntries_eq_map, entryIssues_eq_flatMap, entryIssues_eq_flatMap,
    Entries.toList_map, List.flatMap_map, List.map_flatMap]
  apply List.flatMap_congr
  rintro ⟨key, s⟩ hentry
  exact hschemas key s (Entries.get?_eq_some_iff.mpr hentry)

theorem optionalIssues_renameRefs? {schemas : Option (KeyMap Schema)}
    (hschemas : ∀ entries key s, schemas = some entries →
      entries.get? key = some s →
      s.TellsRenamed rename isDefined isDefined' (path ++ [key])
        (path' ++ [key])) :
    optionalIssues isDefined' path' (renameRefs? rename schemas) =
      (optionalIssues isDefined path schemas).map
        (SchemaIssue.renamed rename) := by
  cases schemas with
  | none => rfl
  | some entries =>
      exact entryIssues_renameEntries fun key s => hschemas entries key s rfl

theorem issuesOfBranch_renameRefs {tag : String} {s : Schema}
    (hpath : SchemaPath.renamed rename path = path')
    (hs : s.TellsRenamed rename isDefined isDefined' path path') :
    (s.renameRefs rename).issuesOfBranch isDefined' tag path' =
      (s.issuesOfBranch isDefined tag path).map
        (SchemaIssue.renamed rename) := by
  rw [Schema.issuesOfBranch, Schema.issuesOfBranch, List.map_append,
    Schema.form_renameRefs, Form.branchFault?_renameRefs, hs]
  congr 1
  cases hfault : s.form.branchFault? tag with
  | none => rfl
  | some fault =>
      rw [Option.toList_some, List.map_singleton, List.map_singleton,
        List.map_singleton, SchemaIssue.renamed, hpath,
        Form.renamed_of_branchFault? hfault]

variable (hdefined : ∀ name, isDefined' (rename name) = isDefined name)

include hdefined

theorem Form.issues_renameRefs {form : Form}
    (hpath : SchemaPath.Renames rename path path')
    (hbelow : ∀ tokens s, form.Holds tokens s →
      s.TellsRenamed rename isDefined isDefined' (path ++ tokens)
        (path' ++ tokens)) :
    (form.renameRefs rename).issues isDefined' path' =
      (form.issues isDefined path).map (SchemaIssue.renamed rename) := by
  cases form with
  | empty => rfl
  | type type => rfl
  | ref name =>
      rw [renameRefs, issues, issues, hdefined]
      split
      · rfl
      · rw [List.map_singleton, SchemaIssue.renamed, hpath.here]
        rfl
  | enum values =>
      rw [renameRefs, issues, issues]
      split
      · rw [List.map_singleton, SchemaIssue.renamed, hpath.here]
        rfl
      · rfl
  | elements s => exact hbelow _ s .elements
  | values s => exact hbelow _ s .values
  | properties required optional additional =>
      have hoverlapping : (sharedKeys required optional).map
            (fun key => (⟨path', .overlappingProperties key⟩ : SchemaIssue)) =
          ((sharedKeys required optional).map
            fun key => (⟨path, .overlappingProperties key⟩ : SchemaIssue)).map
              (SchemaIssue.renamed rename) := by
        rw [List.map_map]
        apply List.map_congr_left
        intro key _
        rw [Function.comp_apply, SchemaIssue.renamed, hpath.here]
        rfl
      have hrequired : optionalIssues isDefined' (path'.under .properties)
            (renameRefs? rename required) =
          (optionalIssues isDefined (path.under .properties) required).map
            (SchemaIssue.renamed rename) := by
        apply optionalIssues_renameRefs?
        rintro entries key s rfl hkey
        rw [SchemaPath.under, SchemaPath.under, List.append_assoc,
          List.append_assoc]
        exact hbelow _ s (.required hkey)
      have hoptional :
          optionalIssues isDefined' (path'.under .optionalProperties)
            (renameRefs? rename optional) =
          (optionalIssues isDefined
            (path.under .optionalProperties) optional).map
            (SchemaIssue.renamed rename) := by
        apply optionalIssues_renameRefs?
        rintro entries key s rfl hkey
        rw [SchemaPath.under, SchemaPath.under, List.append_assoc,
          List.append_assoc]
        exact hbelow _ s (.optional hkey)
      rw [renameRefs, issues, issues, sharedKeys_renameRefs?, hrequired,
        hoptional, hoverlapping, List.map_append, List.map_append]
  | discriminator tag mapping =>
      rw [renameRefs, issues, issues, branchIssues_eq_flatMap,
        branchIssues_eq_flatMap, renameEntries_eq_map, Entries.toList_map,
        List.flatMap_map, List.map_flatMap]
      apply List.flatMap_congr
      rintro ⟨name, s⟩ hentry
      have hbranch := hbelow _ s (.branch (Entries.get?_eq_some_iff.mpr hentry))
      simp only [SchemaPath.under, List.append_assoc, List.cons_append,
        List.nil_append]
      exact issuesOfBranch_renameRefs
        (hpath.below .discriminator _ (by decide)) hbranch

theorem Schema.issuesBelow_renameRefs (s : Schema) (path path' : SchemaPath)
    (hpath : SchemaPath.Renames rename path path') :
    s.TellsRenamed rename isDefined isDefined' path path' := by
  induction s using holdsInduction generalizing path path' with
  | step s ih =>
      have hbelow : ∀ tokens t, s.form.Holds tokens t →
          t.TellsRenamed rename isDefined isDefined' (path ++ tokens)
            (path' ++ tokens) := by
        intro tokens t hholds
        obtain ⟨keyword, rest, rfl, hkeyword⟩ := hholds.exists_cons
        exact ih _ t hholds _ _ (hpath.concat hkeyword rest)
      have hform := Form.issues_renameRefs hdefined hpath hbelow
      obtain ⟨definitions, form⟩ := s
      rw [TellsRenamed, renameRefs, issuesBelow, issuesBelow, List.map_append,
        hform, renameRefs?_eq_map, Option.isSome_map]
      congr 1
      cases definitions with
      | none => rfl
      | some definitions =>
          simp [SchemaIssue.renamed, hpath.here, SchemaFault.renamed]

end

theorem Schema.isDefined_renamed (hrename : Function.Injective rename)
    (s : Schema) (name : String) :
    (s.renamed rename).isDefined (rename name) = s.isDefined name := by
  rw [isDefined, isDefined, definition?_renamed hrename, Option.isSome_map]

/-- The issues of the definitions under other names, which may come in another
order. -/
theorem optionalIssues_renameDefinitions (hrename : Function.Injective rename)
    {isDefined isDefined' : String → Bool}
    (hdefined : ∀ name, isDefined' (rename name) = isDefined name)
    (definitions : Option (KeyMap Schema)) :
    (optionalIssues isDefined' (SchemaPath.under [] .definitions)
      (definitions.map (renameDefinitions rename))).Perm
        ((optionalIssues isDefined (SchemaPath.under [] .definitions)
          definitions).map
          (SchemaIssue.renamed rename)) := by
  cases definitions with
  | none => exact .refl _
  | some definitions =>
      have hperm := toList_renameDefinitions_perm hrename definitions
      have hentry : ∀ entry : String × Schema,
          (entry.2.renameRefs rename).issuesBelow isDefined'
              (SchemaPath.under [] .definitions ++ [rename entry.1]) =
            (entry.2.issuesBelow isDefined (SchemaPath.under [] .definitions ++
              [entry.1])).map
              (SchemaIssue.renamed rename) := by
        rintro ⟨name, s⟩
        exact Schema.issuesBelow_renameRefs hdefined s _ _ (.definition name)
      rw [Option.map_some, optionalIssues, optionalIssues,
        entryIssues_eq_flatMap, entryIssues_eq_flatMap, List.map_flatMap]
      refine (hperm.flatMap_right _).trans (.of_eq ?_)
      rw [List.flatMap_map]
      exact List.flatMap_congr fun entry _ => hentry entry

/-- A schema has the same issues under other names, those of its definitions
maybe in another order. -/
theorem Schema.issues_renamed_perm (hrename : Function.Injective rename)
    (s : Schema) :
    (s.renamed rename).issues.Perm
      (s.issues.map (SchemaIssue.renamed rename)) := by
  have hdefined := isDefined_renamed hrename s
  have hbelow : ∀ tokens t, s.form.Holds tokens t →
      t.TellsRenamed rename s.isDefined (s.renamed rename).isDefined
        tokens tokens := by
    intro tokens t hholds
    obtain ⟨keyword, rest, rfl, hkeyword⟩ := hholds.exists_cons
    exact issuesBelow_renameRefs hdefined t _ _
      (SchemaPath.Renames.root.concat hkeyword rest)
  have hform := Form.issues_renameRefs hdefined .root hbelow
  rw [issues, issues, List.map_append]
  refine List.Perm.append (.of_eq hform) ?_
  exact optionalIssues_renameDefinitions hrename hdefined s.definitions

/-- Definition names are only compared and told again: under other ones, one for
each, a schema validates every instance as before, whatever the limits, and
checking accepts it as before. -/
theorem definition_names_are_opaque (hrename : Function.Injective rename)
    (s : Schema) :
    (∀ limits value, validate limits (s.renamed rename) value =
      translateResult (Violation.renamed rename) rename
        (validate limits s value)) ∧
    ((s.renamed rename).check = .ok () ↔ s.check = .ok ()) ∧
    (s.renamed rename).issues.Perm
      (s.issues.map (SchemaIssue.renamed rename)) := by
  have hissues := s.issues_renamed_perm hrename
  refine ⟨fun limits value => validate_renamed hrename limits s value, ?_,
    hissues⟩
  rw [Schema.check_eq_ok_iff, Schema.check_eq_ok_iff, ← List.length_eq_zero_iff,
    hissues.length_eq, List.length_map, List.length_eq_zero_iff]

/-- Nested objects, of which the names of the definitions are also names of
their members. -/
def oddlyNamed : Schema :=
  ⟨some (KeyMap.ofList
    [("", .ofForm (.properties none
      (some (KeyMap.ofList [("", .ofForm (.ref "")),
        ("a/b", .ofForm (.ref "a/b"))])) false)),
      ("a/b", .ofForm (.type .string))]),
    .ref ""⟩

/-- Other names, which are keywords. -/
def keywordNames : Equiv.Perm String :=
  (Equiv.swap "" "properties").trans (Equiv.swap "a/b" "definitions")

/-- The violation is at the new name of a definition, and the members keep their
names. -/
theorem oddlyNamed_by_keywords :
    Function.Injective keywordNames ∧
      keywordNames "" = "properties" ∧ keywordNames "a/b" = "definitions" ∧
      validate ⟨3, 0⟩ (oddlyNamed.renamed keywordNames)
          (.obj (KeyMap.ofList [("", .obj (KeyMap.ofList [("a/b", .null)]))])) =
        .ok [⟨["", "a/b"], ["definitions", "definitions", "type"]⟩] ∧
      validate ⟨2, 0⟩ (oddlyNamed.renamed keywordNames)
          (.obj (KeyMap.ofList [("", .obj (KeyMap.ofList [("a/b", .null)]))])) =
        .error (.maxDepthExceeded 2) ∧
      (oddlyNamed.renamed keywordNames).check = .ok () := by
  have hinjective : Function.Injective keywordNames := keywordNames.injective
  have hcheck : oddlyNamed.check = .ok () := by decide +kernel
  obtain ⟨hvalidate, hchecks, -⟩ :=
    definition_names_are_opaque hinjective oddlyNamed
  refine ⟨hinjective, by decide +kernel, by decide +kernel, ?_, ?_,
    hchecks.mpr hcheck⟩
  · rw [hvalidate]
    decide +kernel
  · rw [hvalidate]
    decide +kernel

end SchemaForms
