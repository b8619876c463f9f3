import SchemaForms.Proofs.Walked
import SchemaForms.Schema.Issue
/-!
What a checker has to report.  A breach is a rule that a walked node breaks, at
the path of the node or of the branch that is to blame.  The issues of a schema
are its breaches, each one once (`mem_issues_iff_breach`,
`Schema.nodup_issues`), although the checker comes to every branch of a
discriminator twice, as a node and as a branch.
-/

namespace SchemaForms

/-- The rules that a form at a path breaks below a root. -/
inductive Form.Breaks (root : Schema) (path : SchemaPath) :
    Form → SchemaIssue → Prop where
  /-- A ref names no definition of the root. -/
  | unknownRef {name : String} (hname : root.definition? name = none) :
      Breaks root path (.ref name) ⟨path, .unknownRef name⟩
  /-- An enum has no string. -/
  | emptyEnum {values : KeySet}
      (hvalues : ∀ string, values.contains string = false) :
      Breaks root path (.enum values) ⟨path, .emptyEnum⟩
  /-- A member is required and optional, once for each such member. -/
  | overlappingProperties {required optional : KeyMap Schema}
      {additional : Bool} {key : String}
      (hrequired : required.contains key = true)
      (hoptional : optional.contains key = true) :
      Breaks root path (.properties (some required) (some optional) additional)
        ⟨path, .overlappingProperties key⟩
  /-- A branch is no properties form. -/
  | branchNotProperties {tag : String} {mapping : KeyMap Schema} {name : String}
      {branch : Schema} (hbranch : mapping.get? name = some branch)
      (hform : ∀ required optional additional,
        branch.form ≠ .properties required optional additional) :
      Breaks root path (.discriminator tag mapping)
        ⟨path ++ [Keyword.discriminator.name, Keyword.mapping.name, name],
          .branchNotProperties branch.form.kind?⟩
  /-- A branch declares the tag, be it once or in both of its maps. -/
  | tagRedeclared {tag : String} {mapping : KeyMap Schema} {name : String}
      {branch : Schema} {required optional : Option (KeyMap Schema)}
      {additional : Bool} (hbranch : mapping.get? name = some branch)
      (hform : branch.form = .properties required optional additional)
      (htag : declares required tag = true ∨ declares optional tag = true) :
      Breaks root path (.discriminator tag mapping)
        ⟨path ++ [Keyword.discriminator.name, Keyword.mapping.name, name],
          .tagRedeclared tag⟩

/-- The breaches of a schema, taken as the root: the rules that its nodes
break. -/
inductive Schema.Breach (root : Schema) : SchemaIssue → Prop where
  /-- A node that is not the root carries definitions, if only an empty map of
  them. -/
  | nestedDefinitions {path : SchemaPath} {s : Schema}
      (hwalked : root.Walked path s) (hpath : path ≠ [])
      (hdefinitions : s.definitions.isSome = true) :
      Breach root ⟨path, .nestedDefinitions⟩
  | form {path : SchemaPath} {s : Schema} {issue : SchemaIssue}
      (hwalked : root.Walked path s) (hbreaks : s.form.Breaks root path issue) :
      Breach root issue

variable {root s : Schema} {isDefined : String → Bool} {path : SchemaPath}
  {issue : SchemaIssue} {tag key : String}

theorem entryIssues_eq_flatMap {lo : Option String}
    (schemas : Entries Schema lo) :
    entryIssues isDefined path schemas =
      schemas.toList.flatMap fun (key, s) =>
        s.issuesBelow isDefined (path ++ [key]) := by
  induction schemas with
  | nil => rfl
  | cons key above s rest ih =>
      rw [entryIssues, ih, Entries.toList_cons, List.flatMap_cons]

/-- The issues of a branch: those below it, and what is wrong with it as a
branch. -/
def Schema.issuesOfBranch (isDefined : String → Bool) (tag : String)
    (path : SchemaPath) (s : Schema) : List SchemaIssue :=
  s.issuesBelow isDefined path ++ (s.form.branchFault? tag).toList.map
    (⟨path, ·⟩)

theorem branchIssues_eq_flatMap {lo : Option String}
    (mapping : Entries Schema lo) :
    branchIssues isDefined tag path mapping =
      mapping.toList.flatMap fun (key, s) =>
        s.issuesOfBranch isDefined tag (path ++ [key]) := by
  induction mapping with
  | nil => rfl
  | cons key above s rest ih =>
      rw [branchIssues, ih, Entries.toList_cons, List.flatMap_cons]
      rfl

theorem mem_flatMap_toList_iff {α : Type} {lo : Option String}
    {schemas : Entries Schema lo} {f : String × Schema → List α} {a : α} :
    a ∈ schemas.toList.flatMap f ↔ ∃ key s, schemas.get? key = some s ∧
      a ∈ f (key, s) := by
  rw [List.mem_flatMap]
  constructor
  · rintro ⟨⟨key, s⟩, hmem, ha⟩
    exact ⟨key, s, Entries.get?_eq_some_iff.2 hmem, ha⟩
  · rintro ⟨key, s, hkey, ha⟩
    exact ⟨(key, s), Entries.get?_eq_some_iff.1 hkey, ha⟩

theorem mem_optionalIssues_iff {schemas : Option (KeyMap Schema)} :
    issue ∈ optionalIssues isDefined path schemas ↔ ∃ entries key s,
      schemas = some entries ∧
      entries.get? key = some s ∧
      issue ∈ s.issuesBelow isDefined (path ++ [key]) := by
  cases schemas with
  | none => simp [optionalIssues]
  | some entries =>
      rw [optionalIssues, entryIssues_eq_flatMap, mem_flatMap_toList_iff]
      simp

theorem mem_sharedKeys_iff {required optional : Option (KeyMap Schema)} :
    key ∈ sharedKeys required optional ↔ ∃ r o, required = some r ∧
      optional = some o ∧
      r.contains key = true ∧ o.contains key = true := by
  cases required with
  | none => simp [sharedKeys]
  | some r =>
      cases optional with
      | none => simp [sharedKeys]
      | some o => simp [sharedKeys, Entries.mem_keys_iff]

theorem Form.branchFault?_eq_some_iff {form : Form} {fault : SchemaFault} :
    form.branchFault? tag = some fault ↔
      (∀ required optional additional,
        form ≠ .properties required optional additional) ∧
          fault = .branchNotProperties form.kind? ∨
        ∃ required optional additional,
          form = .properties required optional additional ∧
          (declares required tag = true ∨ declares optional tag = true) ∧
          fault = .tagRedeclared tag := by
  cases form with
  | properties required optional additional =>
      constructor
      · intro hfault
        obtain ⟨htag, hfault⟩ := Option.ite_none_right_eq_some.1 hfault
        exact .inr ⟨_, _, _,
          rfl, by simpa using htag, (Option.some.inj hfault).symm⟩
      · rintro (⟨hform, -⟩ | ⟨required, optional, additional, hform, htag, rfl⟩)
        · exact absurd rfl (hform _ _ _)
        · cases hform
          simp [branchFault?, htag]
  | _ =>
      constructor
      · intro hfault
        exact .inl ⟨nofun, (Option.some.inj hfault).symm⟩
      · rintro (⟨-, rfl⟩ | ⟨required, optional, additional, hform, -⟩)
        · rfl
        · cases hform

namespace Form

theorem mem_issues_properties_iff {required optional : Option (KeyMap Schema)}
    {additional : Bool} :
    issue ∈ (properties required optional additional).issues isDefined path ↔
      (∃ r o key, required = some r ∧ optional = some o ∧
        r.contains key = true ∧
        o.contains key = true ∧ issue = ⟨path, .overlappingProperties key⟩) ∨
      (∃ entries key s, required = some entries ∧ entries.get? key = some s ∧
        issue ∈ s.issuesBelow isDefined
          (path ++ [Keyword.properties.name, key])) ∨
      ∃ entries key s, optional = some entries ∧ entries.get? key = some s ∧
        issue ∈ s.issuesBelow isDefined
          (path ++ [Keyword.optionalProperties.name, key]) := by
  rw [issues, List.mem_append, List.mem_append, mem_optionalIssues_iff,
    mem_optionalIssues_iff, or_assoc]
  simp only [SchemaPath.under, List.append_assoc, List.cons_append,
    List.nil_append]
  refine or_congr_left ?_
  constructor
  · intro hshared
    obtain ⟨key, hkey, rfl⟩ := List.mem_map.1 hshared
    obtain ⟨r, o, hr, ho, hrequired, hoptional⟩ := mem_sharedKeys_iff.1 hkey
    exact ⟨r, o, key, hr, ho, hrequired, hoptional, rfl⟩
  · rintro ⟨r, o, key, hr, ho, hrequired, hoptional, rfl⟩
    exact List.mem_map_of_mem
      (mem_sharedKeys_iff.2 ⟨r, o, hr, ho, hrequired, hoptional⟩)

theorem mem_issues_discriminator_iff {mapping : KeyMap Schema} :
    issue ∈ (discriminator tag mapping).issues isDefined path ↔
      ∃ name branch, mapping.get? name = some branch ∧
        issue ∈ branch.issuesOfBranch isDefined tag
        (path ++ [Keyword.discriminator.name, Keyword.mapping.name, name]) := by
  rw [issues, branchIssues_eq_flatMap, mem_flatMap_toList_iff]
  simp only [SchemaPath.under, List.append_assoc, List.cons_append,
    List.nil_append]

theorem mem_issuesOfBranch_iff :
    issue ∈ s.issuesOfBranch isDefined tag path ↔
      issue ∈ s.issuesBelow isDefined path ∨
      ∃ fault, s.form.branchFault? tag = some fault ∧
        issue = ⟨path, fault⟩ := by
  simp [Schema.issuesOfBranch, eq_comm]

/-- Every issue of a form is of a rule that it breaks, or of a schema right
below it. -/
theorem breaks_or_holds {form : Form}
    (hissue : issue ∈ form.issues root.isDefined path) :
    form.Breaks root path issue ∨
      ∃ tokens s, form.Holds tokens s ∧
        issue ∈ s.issuesBelow root.isDefined (path ++ tokens) := by
  cases form with
  | empty => cases hissue
  | type type => cases hissue
  | ref name =>
      rw [issues] at hissue
      split at hissue
      · cases hissue
      · rename_i hname
        rw [List.mem_singleton.1 hissue]
        exact .inl (.unknownRef (by simpa [Schema.isDefined] using hname))
  | enum values =>
      cases values with
      | nil =>
          rw [List.mem_singleton.1 hissue]
          exact .inl (.emptyEnum fun _ => rfl)
      | cons key above value rest => cases hissue
  | elements s => exact .inr ⟨_, s, .elements, hissue⟩
  | values s => exact .inr ⟨_, s, .values, hissue⟩
  | properties required optional additional =>
      rcases mem_issues_properties_iff.1 hissue with
        ⟨r, o, key, rfl, rfl, hrequired, hoptional, rfl⟩ | ⟨entries, key, s,
          rfl, hkey, hissue⟩ |
        ⟨entries, key, s, rfl, hkey, hissue⟩
      · exact .inl (.overlappingProperties hrequired hoptional)
      · exact .inr ⟨_, s, .required hkey, hissue⟩
      · exact .inr ⟨_, s, .optional hkey, hissue⟩
  | discriminator tag mapping =>
      obtain ⟨name, branch, hbranch, hissue⟩ :=
        mem_issues_discriminator_iff.1 hissue
      rcases mem_issuesOfBranch_iff.1 hissue with hbelow | ⟨fault, hfault, rfl⟩
      · exact .inr ⟨_, branch, .branch hbranch, hbelow⟩
      · rcases branchFault?_eq_some_iff.1 hfault with
          ⟨hform, rfl⟩ | ⟨required, optional, additional, hform, htag, rfl⟩
        · exact .inl (.branchNotProperties hbranch hform)
        · exact .inl (.tagRedeclared hbranch hform htag)

theorem Breaks.mem_issues {form : Form}
    (hbreaks : form.Breaks root path issue) :
    issue ∈ form.issues root.isDefined path := by
  cases hbreaks with
  | unknownRef hname => simp [issues, Schema.isDefined, hname]
  | @emptyEnum values hvalues =>
      cases values with
      | nil => exact List.mem_singleton.2 rfl
      | cons key above value rest =>
          have hkey := hvalues key
          simp [Entries.contains] at hkey
  | overlappingProperties hrequired hoptional =>
      exact mem_issues_properties_iff.2
        (.inl ⟨_, _, _, rfl, rfl, hrequired, hoptional, rfl⟩)
  | branchNotProperties hbranch hform =>
      refine mem_issues_discriminator_iff.2 ⟨_, _, hbranch, ?_⟩
      exact mem_issuesOfBranch_iff.2
        (.inr ⟨_, branchFault?_eq_some_iff.2 (.inl ⟨hform, rfl⟩), rfl⟩)
  | tagRedeclared hbranch hform htag =>
      refine mem_issues_discriminator_iff.2 ⟨_, _, hbranch, ?_⟩
      exact mem_issuesOfBranch_iff.2
        (.inr ⟨_, branchFault?_eq_some_iff.2 (.inr ⟨_, _, _, hform, htag, rfl⟩),
          rfl⟩)

/-- A form has the issues of the schemas right below it. -/
theorem Holds.issuesBelow_subset {form : Form} {tokens : SchemaPath}
    (hholds : form.Holds tokens s) (path : SchemaPath) :
    s.issuesBelow isDefined (path ++ tokens) ⊆ form.issues isDefined path := by
  intro issue hissue
  cases hholds with
  | elements => exact hissue
  | values => exact hissue
  | required hkey =>
      exact mem_issues_properties_iff.2
        (.inr (.inl ⟨_, _, _, rfl, hkey, hissue⟩))
  | optional hkey =>
      exact mem_issues_properties_iff.2
        (.inr (.inr ⟨_, _, _, rfl, hkey, hissue⟩))
  | branch hname =>
      exact mem_issues_discriminator_iff.2
        ⟨_, _, hname, mem_issuesOfBranch_iff.2 (.inl hissue)⟩

end Form

namespace Schema

theorem mem_issuesBelow_iff :
    issue ∈ s.issuesBelow isDefined path ↔
      s.definitions.isSome = true ∧ issue = ⟨path, .nestedDefinitions⟩ ∨
        issue ∈ s.form.issues isDefined path := by
  obtain ⟨definitions, form⟩ := s
  rw [issuesBelow, List.mem_append]
  refine or_congr_left ?_
  cases definitions <;> simp

/-- Below the root, the issues of a schema are of what its nodes break. -/
theorem mem_issuesBelow_iff_contains :
    issue ∈ s.issuesBelow root.isDefined path ↔ ∃ rest t, s.Contains rest t ∧
      (t.definitions.isSome = true ∧
        issue = ⟨path ++ rest, .nestedDefinitions⟩ ∨
        t.form.Breaks root (path ++ rest) issue) := by
  induction s using holdsInduction generalizing path with
  | step s ih =>
      constructor
      · intro hissue
        rcases mem_issuesBelow_iff.1 hissue with hnested | hissue
        · exact ⟨[], s, .self, .inl (by rwa [List.append_nil])⟩
        · rcases Form.breaks_or_holds hissue with
            hbreaks | ⟨tokens, t, hholds, hissue⟩
          · exact ⟨[], s, .self, .inr (by rwa [List.append_nil])⟩
          · obtain ⟨rest, u, hcontains, hbreaks⟩ :=
              (ih tokens t hholds).1 hissue
            rw [List.append_assoc] at hbreaks
            exact ⟨tokens ++ rest, u, .under hholds hcontains, hbreaks⟩
      · rintro ⟨rest, u, hcontains, hbreaks⟩
        rw [mem_issuesBelow_iff]
        cases hcontains with
        | self =>
            rw [List.append_nil] at hbreaks
            exact hbreaks.imp_right Form.Breaks.mem_issues
        | @under _ t _ tokens rest hholds hcontains =>
            rw [← List.append_assoc] at hbreaks
            exact .inr (hholds.issuesBelow_subset path
              ((ih tokens t hholds).2 ⟨rest, u, hcontains, hbreaks⟩))

theorem mem_issues_iff :
    issue ∈ root.issues ↔ issue ∈ root.form.issues root.isDefined [] ∨
      ∃ name s, root.definition? name = some s ∧
        issue ∈ s.issuesBelow root.isDefined
          [Keyword.definitions.name, name] := by
  rw [issues, List.mem_append, mem_optionalIssues_iff]
  refine or_congr_right ?_
  constructor
  · rintro ⟨definitions, name, s, hdefinitions, hname, hissue⟩
    exact ⟨name, s, by simp [definition?, hdefinitions, hname], hissue⟩
  · rintro ⟨name, s, hname, hissue⟩
    obtain ⟨definitions, hdefinitions, hname⟩ := Option.bind_eq_some_iff.1 hname
    exact ⟨definitions, name, s, hdefinitions, hname, hissue⟩

/-- The issues of a schema are its breaches. -/
theorem mem_issues_iff_breach : issue ∈ root.issues ↔ root.Breach issue := by
  rw [mem_issues_iff]
  constructor
  · rintro (hissue | ⟨name, s, hname, hissue⟩)
    · rcases Form.breaks_or_holds hissue with
        hbreaks | ⟨tokens, s, hholds, hissue⟩
      · exact .form (.start root) hbreaks
      · obtain ⟨rest, t, hcontains, hbreaks⟩ :=
          mem_issuesBelow_iff_contains.1 hissue
        have hwalked : root.Walked (tokens ++ rest) t :=
          .form (.under hholds hcontains)
        rcases hbreaks with ⟨hdefinitions, rfl⟩ | hbreaks
        · obtain ⟨keyword, others, rfl, -⟩ := hholds.exists_cons
          exact .nestedDefinitions hwalked (List.cons_ne_nil _ _) hdefinitions
        · exact .form hwalked hbreaks
    · obtain ⟨rest, t, hcontains, hbreaks⟩ :=
        mem_issuesBelow_iff_contains.1 hissue
      have hwalked := Walked.definition hname hcontains
      rcases hbreaks with ⟨hdefinitions, rfl⟩ | hbreaks
      · exact .nestedDefinitions hwalked (List.cons_ne_nil _ _) hdefinitions
      · exact .form hwalked hbreaks
  · -- Below the form, the root alone may carry definitions, and it is at the
    -- empty path.
    have hnode : ∀ {path s}, root.Walked path s →
        (path ≠ [] ∧ s.definitions.isSome = true ∧
          issue = ⟨path, .nestedDefinitions⟩ ∨
          s.form.Breaks root path issue) →
        issue ∈ root.form.issues root.isDefined [] ∨ ∃ name s,
          root.definition? name = some s ∧
          issue ∈ s.issuesBelow root.isDefined
            [Keyword.definitions.name, name] := by
      intro path s hwalked hbreaks
      cases hwalked with
      | form hcontains =>
          cases hcontains with
          | self =>
              rcases hbreaks with ⟨hpath, -⟩ | hbreaks
              · exact absurd rfl hpath
              · exact .inl hbreaks.mem_issues
          | under hholds hcontains =>
              refine .inl (hholds.issuesBelow_subset [] ?_)
              exact mem_issuesBelow_iff_contains.2 ⟨_, _, hcontains,
                hbreaks.imp_left And.right⟩
      | definition hname hcontains =>
          refine .inr ⟨_, _, hname, ?_⟩
          exact mem_issuesBelow_iff_contains.2 ⟨_, _, hcontains,
            hbreaks.imp_left And.right⟩
    rintro (⟨hwalked, hpath, hdefinitions⟩ | ⟨hwalked, hbreaks⟩)
    · exact hnode hwalked (.inl ⟨hpath, hdefinitions, rfl⟩)
    · exact hnode hwalked (.inr hbreaks)

end Schema

theorem Form.Breaks.prefix_path {form : Form}
    (hbreaks : form.Breaks root path issue) :
    path <+: issue.path := by
  cases hbreaks with
  | branchNotProperties => exact List.prefix_append _ _
  | tagRedeclared => exact List.prefix_append _ _
  | _ => exact List.prefix_refl _

/-- The issues of a schema are at its path or behind it. -/
theorem Schema.prefix_path
    (hissue : issue ∈ s.issuesBelow root.isDefined path) :
    path <+: issue.path := by
  obtain ⟨rest, t, -, ⟨-, rfl⟩ | hbreaks⟩ :=
    mem_issuesBelow_iff_contains.1 hissue
  · exact List.prefix_append _ _
  · exact (List.prefix_append _ _).trans hbreaks.prefix_path

/-- Issues behind different paths are different. -/
theorem SchemaIssue.ne_of_prefix {other : SchemaIssue} {p q : SchemaPath}
    (hissue : p <+: issue.path) (hother : q <+: other.path)
    (hlength : p.length = q.length) (hne : p ≠ q) : issue ≠ other := by
  rintro rfl
  have hstarts :=
    List.prefix_of_prefix_length_le hissue hother (Nat.le_of_eq hlength)
  exact hne (hstarts.eq_of_length hlength)

theorem nodup_flatMap_toList {schemas : KeyMap Schema}
    {f : String × Schema → List SchemaIssue}
    (hnodup : ∀ key s, schemas.get? key = some s → (f (key, s)).Nodup)
    (hpath : ∀ key s, ∀ issue ∈ f (key, s), path ++ [key] <+: issue.path) :
    (schemas.toList.flatMap f).Nodup := by
  rw [List.Nodup, List.pairwise_flatMap]
  constructor
  · rintro ⟨key, s⟩ hmem
    exact hnodup key s (Entries.get?_eq_some_iff.2 hmem)
  · apply schemas.toList_pairwise.imp
    rintro ⟨key, s⟩ ⟨next, t⟩ hlt issue hissue other hother
    apply SchemaIssue.ne_of_prefix (hpath key s issue hissue)
      (hpath next t other hother) (by simp)
    rintro heq
    simp only [List.append_cancel_left_eq, List.cons.injEq, and_true] at heq
    exact String.lt_irrefl _ (heq ▸ hlt)

theorem prefix_path_optionalIssues {schemas : Option (KeyMap Schema)}
    (hissue : issue ∈ optionalIssues root.isDefined path schemas) :
    path <+: issue.path := by
  obtain ⟨entries, key, s, -, -, hissue⟩ := mem_optionalIssues_iff.1 hissue
  exact (List.prefix_append _ _).trans (Schema.prefix_path hissue)

theorem nodup_optionalIssues {schemas : Option (KeyMap Schema)}
    (hnodup : ∀ entries key s, schemas = some entries →
      entries.get? key = some s →
      (s.issuesBelow root.isDefined (path ++ [key])).Nodup) :
    (optionalIssues root.isDefined path schemas).Nodup := by
  cases schemas with
  | none => exact List.nodup_nil
  | some entries =>
      rw [optionalIssues, entryIssues_eq_flatMap]
      exact nodup_flatMap_toList (fun key s => hnodup entries key s rfl)
        fun key s issue hissue => Schema.prefix_path hissue

theorem nodup_overlapping (required optional : Option (KeyMap Schema)) :
    ((sharedKeys required optional).map
      fun key => (⟨path, .overlappingProperties key⟩ : SchemaIssue)).Nodup := by
  rw [List.Nodup, List.pairwise_map]
  have hnodup : (sharedKeys required optional).Nodup := by
    cases required with
    | none => exact List.nodup_nil
    | some r =>
        cases optional with
        | none => exact List.nodup_nil
        | some o => exact r.nodup_keys.filter _
  apply hnodup.imp
  intro key next hne heq
  cases heq
  exact hne rfl

/-- Whether a fault is one of a branch of a discriminator. -/
def SchemaFault.isOfBranch : SchemaFault → Bool
  | .branchNotProperties _ | .tagRedeclared _ => true
  | _ => false

theorem Form.isOfBranch_of_branchFault? {form : Form} {fault : SchemaFault}
    (hfault : form.branchFault? tag = some fault) :
    fault.isOfBranch = true := by
  rcases branchFault?_eq_some_iff.1 hfault with ⟨-, rfl⟩ | ⟨_, _, _, -, -, rfl⟩
  · rfl
  · rfl

/-- The fault of a branch is reported at the branch, and not at its
discriminator. -/
theorem Form.Breaks.length_lt {form : Form}
    (hbreaks : form.Breaks root path issue)
    (hfault : issue.fault.isOfBranch = true) :
    path.length < issue.path.length := by
  cases hbreaks with
  | branchNotProperties => simp
  | tagRedeclared => simp
  | _ => cases hfault

/-- What is wrong with a schema as a branch is no issue below it. -/
theorem Schema.not_mem_of_branchFault? {fault : SchemaFault}
    (hfault : s.form.branchFault? tag = some fault) :
    (⟨path, fault⟩ : SchemaIssue) ∉ s.issuesBelow root.isDefined path := by
  intro hissue
  have hbranch := Form.isOfBranch_of_branchFault? hfault
  obtain ⟨rest, t, -, ⟨-, heq⟩ | hbreaks⟩ :=
    mem_issuesBelow_iff_contains.1 hissue
  · rw [(SchemaIssue.mk.inj heq).2] at hbranch
    cases hbranch
  · have hlt := hbreaks.length_lt hbranch
    simp only [List.length_append] at hlt
    omega

theorem Schema.nodup_issuesOfBranch
    (hnodup : (s.issuesBelow root.isDefined path).Nodup) :
    (s.issuesOfBranch root.isDefined tag path).Nodup := by
  rw [issuesOfBranch, List.nodup_append]
  refine ⟨hnodup, ?_, ?_⟩
  · cases s.form.branchFault? tag <;> simp
  · rintro issue hissue other hother rfl
    obtain ⟨fault, hfault, rfl⟩ := List.mem_map.1 hother
    exact not_mem_of_branchFault? (Option.mem_toList.1 hfault) hissue

theorem Form.nodup_issues {form : Form}
    (hbelow : ∀ tokens s, form.Holds tokens s →
      (s.issuesBelow root.isDefined (path ++ tokens)).Nodup) :
    (form.issues root.isDefined path).Nodup := by
  cases form with
  | empty => exact List.nodup_nil
  | type type => exact List.nodup_nil
  | ref name => rw [issues]; split <;> simp
  | enum values => rw [issues]; split <;> simp
  | elements s => exact hbelow _ s .elements
  | values s => exact hbelow _ s .values
  | discriminator tag mapping =>
      rw [issues, branchIssues_eq_flatMap]
      apply nodup_flatMap_toList
      · intro name branch hbranch
        apply Schema.nodup_issuesOfBranch
        have hnodup := hbelow _ branch (.branch hbranch)
        rwa [SchemaPath.under, SchemaPath.under, List.append_assoc,
          List.append_assoc]
      · intro name branch issue hissue
        rcases mem_issuesOfBranch_iff.1 hissue with hbelow | ⟨fault, -, rfl⟩
        · exact Schema.prefix_path hbelow
        · exact List.prefix_refl _
  | properties required optional additional =>
      have hoverlapping : ∀ keyword issue, path.under keyword <+: issue.path →
          issue ∉ (sharedKeys required optional).map
            fun key => (⟨path, .overlappingProperties key⟩ : SchemaIssue) := by
        intro keyword issue hstarts hissue
        obtain ⟨key, -, rfl⟩ := List.mem_map.1 hissue
        have hle := hstarts.length_le
        simp only [SchemaPath.under, List.length_append, List.length_singleton]
          at hle
        omega
      rw [issues, List.nodup_append, List.nodup_append]
      refine ⟨⟨nodup_overlapping required optional, ?_, ?_⟩, ?_, ?_⟩
      · apply nodup_optionalIssues
        rintro entries key s rfl hkey
        have hnodup := hbelow _ s (.required hkey)
        rwa [SchemaPath.under, List.append_assoc]
      · rintro issue hissue other hother rfl
        exact hoverlapping _ issue (prefix_path_optionalIssues hother) hissue
      · apply nodup_optionalIssues
        rintro entries key s rfl hkey
        have hnodup := hbelow _ s (.optional hkey)
        rwa [SchemaPath.under, List.append_assoc]
      · intro issue hissue other hother
        have hbehind := prefix_path_optionalIssues hother
        rcases List.mem_append.1 hissue with hissue | hissue
        · rintro rfl
          exact hoverlapping _ issue hbehind hissue
        · apply SchemaIssue.ne_of_prefix
            (prefix_path_optionalIssues hissue) hbehind
          · simp [SchemaPath.under]
          · simp [SchemaPath.under, Keyword.name]

theorem Form.Breaks.fault_ne {form : Form}
    (hbreaks : form.Breaks root path issue) :
    issue.fault ≠ .nestedDefinitions := by
  cases hbreaks <;> nofun

/-- That a schema carries definitions is no issue of its form. -/
theorem Form.nestedDefinitions_not_mem {form : Form} :
    (⟨path, .nestedDefinitions⟩ : SchemaIssue) ∉
      form.issues root.isDefined path := by
  intro hissue
  rcases breaks_or_holds hissue with hbreaks | ⟨tokens, t, hholds, hissue⟩
  · exact hbreaks.fault_ne rfl
  · have hle := (Schema.prefix_path hissue).length_le
    obtain ⟨keyword, others, rfl, -⟩ := hholds.exists_cons
    simp only [List.length_append, List.length_cons] at hle
    omega

theorem Schema.nodup_issuesBelow (root s : Schema) (path : SchemaPath) :
    (s.issuesBelow root.isDefined path).Nodup := by
  induction s using holdsInduction generalizing path with
  | step s ih =>
      have hform : (s.form.issues root.isDefined path).Nodup :=
        Form.nodup_issues fun tokens t hholds =>
          ih tokens t hholds (path ++ tokens)
      obtain ⟨definitions, form⟩ := s
      rw [issuesBelow]
      cases definitions with
      | none => exact hform
      | some definitions =>
          exact List.nodup_cons.2 ⟨Form.nestedDefinitions_not_mem, hform⟩

/-- No issue of the root's form is at a definition. -/
theorem Form.not_definitions_prefix {form : Form}
    (hissue : issue ∈ form.issues root.isDefined []) :
    ¬ [Keyword.definitions.name] <+: issue.path := by
  intro hstarts
  rcases breaks_or_holds hissue with hbreaks | ⟨tokens, t, hholds, hissue⟩
  · cases hbreaks <;> simp [Keyword.name] at hstarts
  · obtain ⟨keyword, others, rfl, hkeyword⟩ := hholds.exists_cons
    obtain ⟨behind, hbehind⟩ := Schema.prefix_path hissue
    rw [← hbehind] at hstarts
    simp only [List.nil_append, List.cons_append, List.cons_prefix_cons]
      at hstarts
    exact hkeyword (Keyword.name_injective hstarts.1).symm

/-- A schema has each of its issues once. -/
theorem Schema.nodup_issues (root : Schema) : root.issues.Nodup := by
  rw [issues, List.nodup_append]
  refine ⟨Form.nodup_issues fun tokens s _ =>
    nodup_issuesBelow root s _, ?_, ?_⟩
  · exact nodup_optionalIssues fun entries name s _ _ =>
      nodup_issuesBelow root s _
  · rintro issue hissue other hother rfl
    exact Form.not_definitions_prefix hissue (prefix_path_optionalIssues hother)

/-- A path in words, joined with slashes. -/
theorem SchemaPath.text_cons (token : String) (path : SchemaPath) :
    SchemaPath.text (token :: path) = "/" ++ String.intercalate "/"
      (token :: path) := by
  have hjoin : ∀ (token : String) (path : List String),
      String.join ((token :: path).map ("/" ++ ·)) = "/" ++
        String.intercalate "/" (token :: path) := by
    intro token path
    induction path generalizing token with
    | nil => simp
    | cons next rest ih =>
        rw [List.map_cons, String.join_cons, ih, String.intercalate_cons_cons]
        simp [String.append_assoc]
  exact hjoin token path

/-- Checking accepts the schemas without an issue. -/
theorem Schema.check_eq_ok_iff : root.check = .ok () ↔ root.issues = [] := by
  rw [check, ← List.isEmpty_iff]
  cases root.issues.isEmpty <;> simp

theorem Schema.check_eq_error_iff {issues : List SchemaIssue} :
    root.check = .error issues ↔ issues = root.issues ∧ root.issues ≠ [] := by
  rw [check, ← List.isEmpty_eq_false_iff]
  cases root.issues.isEmpty <;> simp [eq_comm]

/-- What is told of a fault: the name of the rule that is broken, and a
message. -/
inductive SchemaFault.IsTold : SchemaFault → String → String → Prop where
  | nestedDefinitions :
      IsTold .nestedDefinitions "non_root_definitions"
        "definitions are only allowed on the root schema"
  | unknownRef (name : String) :
      IsTold (.unknownRef name) "unknown_ref"
        ("ref '" ++ name ++ "' does not name a root definition")
  | emptyEnum :
      IsTold .emptyEnum "empty_enum" "enum must contain at least one value"
  | overlappingProperties (key : String) :
      IsTold (.overlappingProperties key) "overlapping_properties"
        ("'" ++ key ++ "' is both a required and an optional property")
  | emptyBranch :
      IsTold (.branchNotProperties none) "mapping_not_properties"
        ("discriminator mapping values must be properties schemas, " ++
          "found empty")
  | otherBranch {kind : FormKind} {word : String}
      (hword : (kind, word) ∈ [(.ref, "ref"), (.type, "type"),
        (.enum, "enum"), (.elements, "elements"), (.properties, "properties"),
        (.values, "values"), (.discriminator, "discriminator")]) :
      IsTold (.branchNotProperties (some kind)) "mapping_not_properties"
        ("discriminator mapping values must be properties schemas, " ++
          "found " ++ word)
  | tagRedeclared (tag : String) :
      IsTold (.tagRedeclared tag) "tag_redeclared"
        ("discriminator tag '" ++ tag ++
          "' must not be declared as a property")

theorem SchemaFault.isTold_iff {fault : SchemaFault} {code message : String} :
    fault.IsTold code message ↔ fault.code = code ∧
      fault.message = message := by
  constructor
  · intro htold
    cases htold with
    | @otherBranch kind word hword =>
        have hname : kind.keyword.name = word := by
          cases kind <;>
            simpa [FormKind.keyword, Keyword.name, eq_comm] using hword
        rw [← hname]
        exact ⟨rfl, rfl⟩
    | _ => exact ⟨rfl, rfl⟩
  · rintro ⟨rfl, rfl⟩
    cases fault with
    | nestedDefinitions => exact .nestedDefinitions
    | unknownRef name => exact .unknownRef name
    | emptyEnum => exact .emptyEnum
    | overlappingProperties key => exact .overlappingProperties key
    | branchNotProperties found =>
        cases found with
        | none => exact .emptyBranch
        | some kind =>
            apply IsTold.otherBranch
            cases kind <;> decide
    | tagRedeclared tag => exact .tagRedeclared tag

/-- A check reports the breaches of a schema, each of them once and at its node
or branch, and accepts the schemas that have none. -/
theorem issues_are_breaches (root : Schema) :
    root.issues.Nodup ∧ (∀ issue, issue ∈ root.issues ↔ root.Breach issue) ∧
    (∀ path s t, root.Walked path s → root.Walked path t → s = t) ∧
    (∀ (fault : SchemaFault) code message, fault.IsTold code message ↔
      fault.code = code ∧ fault.message = message) ∧
    SchemaPath.text [] = "/" ∧
    (∀ token path,
      SchemaPath.text (token :: path) = "/" ++ String.intercalate "/"
        (token :: path)) ∧
    (root.check = .ok () ↔ ∀ issue, ¬ root.Breach issue) ∧
    ∀ issues, root.check = .error issues → issues = root.issues ∧
      SchemaIssue.message issues = "invalid schema: " ++
        String.intercalate "; "
          (issues.map fun issue =>
            issue.fault.message ++ " at " ++ issue.path.text) := by
  refine ⟨root.nodup_issues, fun issue => Schema.mem_issues_iff_breach,
    fun path s t => Schema.Walked.unique,
    fun fault code message => SchemaFault.isTold_iff, rfl,
    SchemaPath.text_cons, ?_, ?_⟩
  · simp only [Schema.check_eq_ok_iff, List.eq_nil_iff_forall_not_mem,
      Schema.mem_issues_iff_breach]
  · intro issues herror
    exact ⟨(Schema.check_eq_error_iff.1 herror).1, rfl⟩

/-- A schema that breaks every rule: one branch declares the tag twice, and the
other is a ref to a definition that carries definitions itself. -/
def brokenRules : Schema :=
  ⟨some (KeyMap.ofList [("a", ⟨some .nil, .ref "b"⟩)]),
    .discriminator "kind" (KeyMap.ofList
      [("x", .ofForm
        (.properties (some (KeyMap.ofList [("kind", .ofForm (.enum .nil))]))
        (some (KeyMap.ofList [("kind", .empty)])) false)),
      ("y", .ofForm (.ref "a"))])⟩

theorem issues_are_breaches_brokenRules :
    brokenRules.issues =
        [⟨["discriminator", "mapping", "x"], .overlappingProperties "kind"⟩,
          ⟨["discriminator", "mapping", "x", "properties", "kind"], .emptyEnum⟩,
          ⟨["discriminator", "mapping", "x"], .tagRedeclared "kind"⟩,
          ⟨["discriminator", "mapping", "y"], .branchNotProperties (some .ref)⟩,
          ⟨["definitions", "a"], .nestedDefinitions⟩,
          ⟨["definitions", "a"], .unknownRef "b"⟩] ∧
      (brokenRules.issues.map fun issue => issue.fault.code) =
        ["overlapping_properties", "empty_enum", "tag_redeclared",
          "mapping_not_properties", "non_root_definitions", "unknown_ref"] ∧
      brokenRules.issues.Nodup ∧
      brokenRules.Breach ⟨["discriminator", "mapping", "x"],
        .tagRedeclared "kind"⟩ ∧
      SchemaFault.IsTold (.tagRedeclared "kind") "tag_redeclared"
        "discriminator tag 'kind' must not be declared as a property" ∧
      ¬ brokenRules.Breach ⟨["discriminator", "mapping", "y"],
        .unknownRef "a"⟩ ∧
      (∀ s, brokenRules.Walked ["definitions", "a"] s →
        s = ⟨some .nil, .ref "b"⟩) ∧
      brokenRules.check ≠ .ok () ∧
      brokenRules.check = .error brokenRules.issues ∧
      SchemaIssue.message brokenRules.issues = "invalid schema: " ++
        String.intercalate "; " (brokenRules.issues.map fun issue =>
          issue.fault.message ++ " at " ++ issue.path.text) := by
  obtain ⟨hnodup, hbreach, hunique, htold, -, -, hok, herror⟩ :=
    issues_are_breaches brokenRules
  have htag : brokenRules.Breach ⟨["discriminator", "mapping", "x"],
      .tagRedeclared "kind"⟩ :=
    (hbreach _).1 (by decide +kernel)
  refine ⟨rfl, rfl, hnodup, htag, (htold _ _ _).2 ⟨rfl, rfl⟩, ?_, ?_,
    fun haccepted => hok.1 haccepted _ htag, rfl,
    (herror brokenRules.issues rfl).2⟩
  · intro hknown
    have hmem := (hbreach _).2 hknown
    revert hmem
    decide +kernel
  · intro s hwalked
    exact hunique _ _ _ hwalked (.definition rfl .self)

end SchemaForms
