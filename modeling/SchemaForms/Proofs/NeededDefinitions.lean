import SchemaForms.Session
import SchemaForms.Proofs.PairedParts
/-!
The definitions that a validation needs.  A validation looks up the names that
the form of its root refers to, those that the definitions of these names refer
to, and so on; it always looks them up at the root.  So two roots with the same
form, which agree on the names that are needed, validate alike
(`validate_of_agrees`), whatever else they define, and whatever is defined below
them.
-/

namespace SchemaForms

mutual

/-- The schema without its definitions, and without those that stand anywhere
below it. -/
def Schema.bare : Schema → Schema
  | ⟨_, form⟩ => ⟨none, form.bare⟩

def Form.bare : Form → Form
  | .empty => .empty
  | .ref name => .ref name
  | .type type => .type type
  | .enum values => .enum values
  | .elements schema => .elements schema.bare
  | .properties required optional additional =>
      .properties (bareEntries? required) (bareEntries? optional) additional
  | .values schema => .values schema.bare
  | .discriminator tag mapping => .discriminator tag (bareEntries mapping)

/-- The bare schemas of a map, unless the map is missing. -/
def bareEntries? : Option (Entries Schema none) → Option (Entries Schema none)
  | none => none
  | some schemas => some (bareEntries schemas)

def bareEntries {lo : Option String} : Entries Schema lo → Entries Schema lo
  | .nil => .nil
  | .cons name above schema rest =>
      .cons name above schema.bare (bareEntries rest)

end

theorem bareEntries_eq_map {lo : Option String} (schemas : Entries Schema lo) :
    bareEntries schemas = schemas.map Schema.bare := by
  induction schemas with
  | nil => rfl
  | cons name above schema rest ih => rw [bareEntries, Entries.map, ih]

theorem bareEntries?_eq_map (schemas : Option (KeyMap Schema)) :
    bareEntries? schemas = schemas.map bareEntries := by
  cases schemas <;> rfl

/-- Two schemas are the same but for the definitions that they carry. -/
def Schema.SameBare (s t : Schema) : Prop :=
  s.bare = t.bare

theorem Schema.sameBare_iff {s t : Schema} : s.SameBare t ↔
    s.form.bare = t.form.bare := by
  obtain ⟨definitions, form⟩ := s
  obtain ⟨definitions', form'⟩ := t
  simp [SameBare, Schema.bare]

theorem related_of_bareEntries_eq {schemas schemas' : KeyMap Schema}
    (hbare : bareEntries schemas = bareEntries schemas') :
    Entries.Related Schema.SameBare schemas schemas' := by
  rw [bareEntries_eq_map, bareEntries_eq_map] at hbare
  refine ⟨?_, ?_⟩
  · have hkeys := congrArg Entries.keys hbare
    simpa [Entries.keys, Function.comp_def] using hkeys
  · intro key s s' hs hs'
    have hkey := congrArg (Entries.get? key) hbare
    rw [Entries.get?_map, Entries.get?_map, hs, hs'] at hkey
    exact Option.some.inj hkey

theorem related_of_bareEntries?_eq {schemas schemas' : Option (KeyMap Schema)}
    (hbare : bareEntries? schemas = bareEntries? schemas') :
    Option.Rel (Entries.Related Schema.SameBare) schemas schemas' := by
  rw [bareEntries?_eq_map, bareEntries?_eq_map] at hbare
  exact rel_imp (fun _ _ => related_of_bareEntries_eq) (rel_of_map_eq hbare)

/-- Forms that are the same but for definitions below them have one shape. -/
theorem Form.congruent_of_bare_eq {form form' : Form}
    (hbare : form.bare = form'.bare) :
    form.Congruent Schema.SameBare form' := by
  cases form <;> cases form' <;> simp only [Form.bare, reduceCtorEq] at hbare
  case empty.empty => exact .empty
  case ref.ref name name' =>
    cases hbare
    exact .ref
  case type.type type type' =>
    cases hbare
    exact .type
  case enum.enum values values' =>
    cases hbare
    exact .enum
  case elements.elements s s' => exact .elements (Form.elements.inj hbare)
  case properties.properties required optional additional required'
    optional' additional' =>
      obtain ⟨hrequired, hoptional, rfl⟩ := Form.properties.inj hbare
      exact .properties (related_of_bareEntries?_eq hrequired)
        (related_of_bareEntries?_eq hoptional)
  case values.values s s' => exact .values (Form.values.inj hbare)
  case discriminator.discriminator tag mapping tag' mapping' =>
    obtain ⟨rfl, hmapping⟩ := Form.discriminator.inj hbare
    exact .discriminator (related_of_bareEntries_eq hmapping)

theorem Schema.SameBare.congruent {s t : Schema} (hbare : s.SameBare t) :
    s.form.Congruent SameBare t.form :=
  Form.congruent_of_bare_eq (sameBare_iff.1 hbare)

/-- A schema has a ref to a name, in its form or below. -/
def Schema.Mentions (s : Schema) (name : String) : Prop :=
  ∃ path t, s.Contains path t ∧ t.form = .ref name

/-- The names that the form of a root has refs to, and those that the
definitions of needed names have refs to. -/
inductive Schema.Needs (root : Schema) : String → Prop where
  | form {name : String} (hmentions : root.Mentions name) : Needs root name
  | definition {other name : String} {definition : Schema}
      (hneeds : Needs root other)
      (hdefinition : root.definition? other = some definition)
      (hmentions : definition.Mentions name) :
      Needs root name

/-- Two roots have the same form, and of every name that is needed the same
definition or none, but for the definitions below them. -/
structure Schema.Agrees (root root' : Schema) : Prop where
  form : root.form.bare = root'.form.bare
  definitions : ∀ name, root.Needs name →
    (root.definition? name).map Schema.bare =
      (root'.definition? name).map Schema.bare

variable {root root' : Schema} {n n' c : Node} {name : String}
  {tokens : SchemaPath} {s t : Schema}

theorem Schema.Mentions.of_holds (hholds : s.form.Holds tokens t)
    (hmentions : t.Mentions name) :
    s.Mentions name := by
  obtain ⟨path, u, hcontains, href⟩ := hmentions
  exact ⟨tokens ++ path, u, .under hholds hcontains, href⟩

/-- All names to which the schema of a node has refs are needed. -/
def Node.Provided (root : Schema) (n : Node) : Prop :=
  ∀ name, n.schema.Mentions name → root.Needs name

theorem Node.Provided.of_meets (hprovided : n.Provided root)
    (hmeets : n.Meets root (.node c)) :
    c.Provided root := by
  intro name hmentions
  by_cases href : ∃ other, n.schema.form = .ref other
  · obtain ⟨other, hother⟩ := href
    cases hmeets with
    | target hform htarget =>
        have hneeds : root.Needs _ := hprovided _ ⟨[], n.schema, .self, hform⟩
        exact .definition hneeds htarget hmentions
    | _ => simp_all
  · obtain ⟨tokens, hholds, -⟩ := hmeets.exists_holds fun other hother =>
      href ⟨other, hother⟩
    exact hprovided name (hmentions.of_holds hholds)

/-- A needed name is bound by both of two roots that agree, to schemas that are
the same but for their definitions, or by none of them. -/
theorem Schema.Agrees.rel_definition? (hagrees : root.Agrees root')
    (hneeds : root.Needs name) :
    Option.Rel SameBare (root.definition? name) (root'.definition? name) :=
  rel_of_map_eq (hagrees.definitions name hneeds)

/-- Roots that agree are in lock step, at the same places. -/
theorem Schema.Agrees.lockStep (hagrees : root.Agrees root') (limits : Limits) :
    LockStep (fun n n' => n.Provided root ∧ n.Matches Eq (OneValue SameBare) n')
      id limits root root' := by
  constructor
  · rintro n n' ⟨-, hplace, -, hbare, -⟩
    exact hbare.congruent.tooDeep_eq (congrArg Place.depth hplace.symm)
  · rintro n n' ⟨hprovided, hplace, htag, hbare, hvalue⟩
    apply Part.forall₂_and
    · apply hbare.congruent.parts_paired (Place.together_eq fun _ =>
        rfl) hplace hvalue htag
      intro name hname
      exact hagrees.rel_definition?
        (hprovided name ⟨[], n.schema, .self, hname⟩)
    · intro c hc
      exact hprovided.of_meets (Node.mem_parts_iff.1 hc)

theorem Schema.Agrees.validate_eq (hagrees : root.Agrees root')
    (limits : Limits) (value : Json) :
    validate limits root' value = validate limits root value := by
  have hstart : (Node.start root value).Provided root := fun name => .form
  have hmatches : (Node.start root value).Matches Eq (OneValue SameBare)
      (.start root' value) :=
    ⟨rfl, rfl, sameBare_iff.2 hagrees.form, rfl⟩
  exact (hagrees.lockStep limits).validate_eq_of_id ⟨hstart, hmatches⟩

/-- What is bound to a name that is not needed does not matter. -/
theorem Schema.agrees_of_other (hneeds : ¬ root.Needs name)
    (hform : root'.form = root.form)
    (hothers : ∀ other, other ≠ name →
      root'.definition? other = root.definition? other) :
    root.Agrees root' := by
  refine ⟨congrArg Form.bare hform.symm, ?_⟩
  intro other hother
  rw [hothers other]
  rintro rfl
  exact hneeds hother

theorem Schema.agrees_define (hneeds : ¬ root.Needs name)
    (definition : Schema) :
    root.Agrees (root.define name definition) := by
  refine agrees_of_other hneeds rfl ?_
  intro other hother
  obtain ⟨definitions, form⟩ := root
  cases definitions <;> simp [define, definition?, hother]

theorem Schema.agrees_undefine (hneeds : ¬ root.Needs name) :
    root.Agrees (root.undefine name) := by
  refine agrees_of_other hneeds rfl ?_
  intro other hother
  obtain ⟨definitions, form⟩ := root
  cases definitions <;> simp [undefine, definition?, Entries.get?_erase, hother]

/-- Of two forms over bare schemas, the roots agree with each other. -/
theorem Schema.agrees_ofForm {form form' : Form}
    (hbare : form.bare = form'.bare) :
    (ofForm form).Agrees (ofForm form') :=
  ⟨hbare, fun _ _ => rfl⟩

/-- Only the root definitions that are needed influence a validation: roots that
agree on them validate every instance with the same result, within all limits.
So a definition that is not needed may be added, changed or removed, and the
definitions of a schema that is wrapped do not count any more. -/
theorem validate_of_agrees (root : Schema) (limits : Limits) (value : Json) :
    (∀ root', root.Agrees root' →
      validate limits root' value = validate limits root value) ∧
      (∀ name, ¬ root.Needs name →
        (∀ definition, validate limits (root.define name definition) value =
          validate limits root value) ∧
        validate limits (root.undefine name) value =
          validate limits root value) ∧
      validate limits root.wrapElements value =
        validate limits root.strip.wrapElements value ∧
      validate limits root.wrapValues value =
        validate limits root.strip.wrapValues value := by
  refine ⟨?_, ?_, ?_, ?_⟩
  · intro root' hagrees
    exact hagrees.validate_eq limits value
  · intro name hneeds
    refine ⟨?_, (Schema.agrees_undefine hneeds).validate_eq limits value⟩
    intro definition
    exact (Schema.agrees_define hneeds definition).validate_eq limits value
  · have hbare : (Form.elements root.strip).bare = (Form.elements root).bare :=
      congrArg Form.elements (Schema.sameBare_iff.2 rfl)
    exact (Schema.agrees_ofForm hbare).validate_eq limits value
  · have hbare : (Form.values root.strip).bare = (Form.values root).bare :=
      congrArg Form.values (Schema.sameBare_iff.2 rfl)
    exact (Schema.agrees_ofForm hbare).validate_eq limits value

/-- Lists of words, with a definition that nothing refers to. -/
def wordList : Schema :=
  ⟨some (KeyMap.ofList [("stray", .ofForm (.ref "nothing")),
    ("word", .ofForm (.type .string))]),
    .elements (.ofForm (.ref "word"))⟩

/-- The same lists without that definition.  Below the root there is another one
for words. -/
def otherWordList : Schema :=
  ⟨some (KeyMap.ofList [("word", .ofForm (.type .string))]),
    .elements ⟨some (KeyMap.ofList [("word", .empty)]), .ref "word"⟩⟩

theorem needs_wordList {name : String} (hneeds : wordList.Needs name) :
    name = "word" := by
  induction hneeds with
  | form hmentions =>
      obtain ⟨path, t, hcontains, href⟩ := hmentions
      cases hcontains with
      | self => cases href
      | under hholds hcontains =>
          cases hholds
          cases hcontains with
          | self =>
              cases href
              rfl
          | under hholds _ => cases hholds
  | definition _ hdefinition hmentions ih =>
      subst ih
      cases hdefinition
      obtain ⟨path, t, hcontains, href⟩ := hmentions
      cases hcontains with
      | self => cases href
      | under hholds _ => cases hholds

/-- The word that stands below the root is not looked up, and the stray
definition may be anything. -/
theorem validate_of_agrees_wordList :
    wordList.Agrees otherWordList ∧ ¬ wordList.Needs "stray" ∧
      validate ⟨1, 0⟩ otherWordList (.arr [.null, .str "a"]) =
        .ok [⟨["0"], ["definitions", "word", "type"]⟩] ∧
      validate ⟨1, 0⟩ (wordList.define "stray" .empty)
          (.arr [.null, .str "a"]) =
        .ok [⟨["0"], ["definitions", "word", "type"]⟩] := by
  have hagrees : wordList.Agrees otherWordList := by
    refine ⟨rfl, ?_⟩
    intro name hneeds
    rw [needs_wordList hneeds]
    rfl
  have hstray : ¬ wordList.Needs "stray" := by
    intro hneeds
    have hword := needs_wordList hneeds
    simp at hword
  have hvalid : validate ⟨1, 0⟩ wordList (.arr [.null, .str "a"]) =
      .ok [⟨["0"], ["definitions", "word", "type"]⟩] := by rfl
  obtain ⟨hsame, hothers, -⟩ :=
    validate_of_agrees wordList ⟨1, 0⟩ (.arr [.null, .str "a"])
  exact ⟨hagrees, hstray, (hsame _ hagrees).trans hvalid,
    ((hothers _ hstray).1 _).trans hvalid⟩

end SchemaForms
