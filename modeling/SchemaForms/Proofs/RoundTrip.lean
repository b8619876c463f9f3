import SchemaForms.Proofs.Description
import SchemaForms.Session
import Mathlib.Logic.Function.Basic
/-!
Writing a schema and reading it again.  The object that a schema is written as
has the keywords of its form and of no other (`Schema.isOnly_members`), and
describes that schema (`describes_toJson`), so nothing of a schema is lost, be
it sensible or not.
-/

namespace SchemaForms

def Form.written? : Form → Keyword → Option Json
  | .ref name, .ref => some (.str name)
  | .type primitive, .type => some (.str primitive.name)
  | .enum strings, .enum => some (KeySet.toJson strings)
  | .elements schema, .elements => some schema.toJson
  | .properties required _ _, .properties =>
      required.map fun schemas => .obj (encodeEntries schemas)
  | .properties _ optional _, .optionalProperties =>
      optional.map fun schemas => .obj (encodeEntries schemas)
  | .properties required optional additional, .additionalProperties =>
      if additional || (required.isNone && optional.isNone) then
        some (.bool additional) else none
  | .values schema, .values => some schema.toJson
  | .discriminator tag mapping, .discriminator =>
      some (.object [(Keyword.tag.name, .str tag),
        (Keyword.mapping.name, .obj (encodeEntries mapping))])
  | _, _ => none

theorem Form.lookup_members (form : Form) (keyword : Keyword) :
    form.members.reverse.lookup keyword.name = form.written? keyword := by
  cases form with
  | properties required optional additional =>
      cases required <;> cases optional <;> cases additional <;>
        cases keyword <;> rfl
  | _ => cases keyword <;> rfl

/-- The value that a schema is written with at a keyword. -/
def Schema.written? (s : Schema) : Keyword → Option Json
  | .definitions =>
      s.definitions.map fun schemas => .obj (encodeEntries schemas)
  | keyword => s.form.written? keyword

def Schema.members (s : Schema) : KeyMap Json :=
  KeyMap.ofList (optionalMember .definitions s.definitions ++ s.form.members)

theorem Schema.toJson_eq_obj (s : Schema) : s.toJson = .obj s.members := by
  obtain ⟨definitions, form⟩ := s
  rw [toJson]
  rfl

/-- No form is written with a keyword that belongs to no form. -/
theorem Form.written?_of_kind? (form : Form) {keyword : Keyword}
    (hkeyword : keyword.kind? = none) :
    form.written? keyword = none := by
  rw [written?.eq_def]
  split
  case h_10 => rfl
  all_goals cases hkeyword

theorem Schema.get?_members (s : Schema) (keyword : Keyword) :
    s.members.get? keyword.name = s.written? keyword := by
  rw [members, KeyMap.get?_ofList, List.reverse_append, List.lookup_append,
    Form.lookup_members]
  obtain ⟨definitions, form⟩ := s
  cases keyword with
  | definitions =>
      rw [Form.written?_of_kind? form rfl]
      cases definitions <;> rfl
  | _ =>
      cases definitions with
      | none => exact Option.or_none
      | some schemas => exact Option.or_none

theorem Form.kind?_of_written? {form : Form} {keyword : Keyword} {value : Json}
    (hvalue : form.written? keyword = some value) :
    keyword.kind? = form.kind? := by
  rw [written?.eq_def] at hvalue
  split at hvalue
  -- In the last case the keyword is of another form.
  case h_10 => cases hvalue
  all_goals rfl

/-- A form is written with one of its keywords at least. -/
theorem Form.exists_written? {form : Form} {kind : FormKind}
    (hkind : form.kind? = some kind) :
    ∃ keyword value, keyword.kind? = some kind ∧
      form.written? keyword = some value := by
  cases form with
  | empty => cases hkind
  | properties required optional additional =>
      cases hkind
      cases required with
      | some required => exact ⟨.properties, _, rfl, rfl⟩
      | none =>
          cases optional with
          | some optional => exact ⟨.optionalProperties, _, rfl, rfl⟩
          | none =>
              exact ⟨.additionalProperties, .bool additional,
                rfl, by simp [written?]⟩
  | ref name =>
      cases hkind
      exact ⟨.ref, _, rfl, rfl⟩
  | type type =>
      cases hkind
      exact ⟨.type, _, rfl, rfl⟩
  | enum values =>
      cases hkind
      exact ⟨.enum, _, rfl, rfl⟩
  | elements schema =>
      cases hkind
      exact ⟨.elements, _, rfl, rfl⟩
  | values schema =>
      cases hkind
      exact ⟨.values, _, rfl, rfl⟩
  | discriminator tag mapping =>
      cases hkind
      exact ⟨.discriminator, _, rfl, rfl⟩

theorem Schema.written?_of_kind? {s : Schema} {keyword : Keyword}
    {kind : FormKind} (hkind : keyword.kind? = some kind) :
    s.written? keyword = s.form.written? keyword := by
  rw [written?.eq_def]
  split
  · cases hkind
  · rfl

/-- A schema is written with the keywords of its form and of no other one. -/
theorem Schema.isOnly_members (s : Schema) :
    FormKind.IsOnly s.members s.form.kind? := by
  intro kind
  constructor
  · rintro ⟨keyword, hkeyword, hcontains⟩
    rw [FormKind.mem_keywords_iff] at hkeyword
    obtain ⟨value, hvalue⟩ := Entries.contains_iff.1 hcontains
    rw [get?_members, written?_of_kind? hkeyword] at hvalue
    rw [← Form.kind?_of_written? hvalue, hkeyword]
  · intro hkind
    obtain ⟨keyword, value, hkeyword, hvalue⟩ := Form.exists_written? hkind
    refine ⟨keyword, FormKind.mem_keywords_iff.2 hkeyword,
      Entries.contains_iff.2 ⟨value, ?_⟩⟩
    rw [get?_members, written?_of_kind? hkeyword, hvalue]

/-- Members that are all written with keywords bind nothing else. -/
theorem get?_of_unknown {entries : List (String × Json)} {key : String}
    (hentries : entries.all (fun entry => (Keyword.ofName? entry.1).isSome) =
      true)
    (hunknown : Keyword.ofName? key = none) :
    (KeyMap.ofList entries).get? key = none := by
  rw [KeyMap.get?_ofList, List.lookup_eq_none_iff]
  intro entry hentry
  have hknown := List.all_eq_true.1 hentries entry (List.mem_reverse.1 hentry)
  rw [bne_iff_ne]
  rintro rfl
  simp [hunknown] at hknown

theorem Form.all_members (form : Form) :
    form.members.all (fun entry => (Keyword.ofName? entry.1).isSome) =
      true := by
  cases form with
  | properties required optional additional =>
      cases required <;> cases optional <;> cases additional <;> rfl
  | _ => rfl

/-- A schema is written with keywords only. -/
theorem Schema.get?_members_of_unknown (s : Schema) {key : String}
    (hunknown : Keyword.ofName? key = none) : s.members.get? key = none := by
  refine get?_of_unknown ?_ hunknown
  rw [List.all_append, Form.all_members, Bool.and_true]
  cases s.definitions <;> rfl

mutual

theorem describes_toJson : (s : Schema) → Describes s.toJson s
  | ⟨definitions, form⟩ => by
      rw [Schema.toJson_eq_obj]
      refine .obj ?_ (Schema.isOnly_members ⟨definitions, form⟩) ?_
      · rw [Schema.get?_members]
        exact describesMap?_encodeEntries definitions
      · exact describesForm_members form fun keyword kind hkind => by
          rw [Schema.get?_members, Schema.written?_of_kind? hkind]

theorem describesForm_members : (form : Form) → {members : KeyMap Json} →
    (∀ keyword kind, keyword.kind? = some kind →
      members.get? keyword.name = form.written? keyword) →
      DescribesForm members form
  | .empty, _, _ => .empty
  | .ref _, _, hmembers => .ref (hmembers .ref .ref rfl)
  | .type _, _, hmembers => .type (hmembers .type .type rfl)
  | .enum values, _, hmembers =>
      .enum (hmembers .enum .enum rfl) values.nodup_keys fun _ =>
        Entries.mem_keys_iff.symm
  | .elements schema, _, hmembers =>
      .elements (hmembers .elements .elements rfl) (describes_toJson schema)
  | .properties required optional additional, _, hmembers => by
      refine .properties ?_ ?_ ?_
      · rw [hmembers .properties .properties rfl]
        exact describesMap?_encodeEntries required
      · rw [hmembers .optionalProperties .properties rfl]
        exact describesMap?_encodeEntries optional
      · rw [hmembers .additionalProperties .properties rfl, Form.written?]
        split
        · rfl
        · rename_i hneither
          cases additional with
          | false => rfl
          | true => simp at hneither
  | .values schema, _, hmembers =>
      .values (hmembers .values .values rfl) (describes_toJson schema)
  | .discriminator tag mapping, _, hmembers => by
      refine .discriminator (hmembers .discriminator .discriminator rfl) ?_ ?_
      · rw [KeyMap.get?_ofList]
        rfl
      · rw [KeyMap.get?_ofList]
        exact DescribesMap?.some (describesEntries_encodeEntries mapping)

theorem describesMap?_encodeEntries : (schemas : Option (Entries Schema none)) →
    DescribesMap? (schemas.map fun schemas =>
      .obj (encodeEntries schemas)) schemas
  | none => .none
  | some schemas => .some (describesEntries_encodeEntries schemas)

theorem describesEntries_encodeEntries : {lo : Option String} →
    (schemas : Entries Schema lo) →
    DescribesEntries (encodeEntries schemas) schemas
  | _, .nil => by
      rw [encodeEntries]
      exact .nil
  | _, .cons _ _ schema others => by
      rw [encodeEntries]
      exact .cons (describes_toJson schema)
        (describesEntries_encodeEntries others)

end

/-- Reading undoes writing. -/
theorem ofJson?_toJson (s : Schema) : Schema.ofJson? s.toJson = .ok s :=
  ofJson?_eq_ok_iff.2 (describes_toJson s)

theorem toJson_injective : Function.Injective Schema.toJson := by
  intro s t hst
  have ht := describes_toJson t
  rw [← hst] at ht
  exact (describes_toJson s).unique ht

namespace Session

/-- A session after some edits, and what each of them resulted in. -/
def editAll (s : Session) :
    List Edit → Session × List (Except SchemaError Schema)
  | [] => (s, [])
  | e :: rest =>
      let (next, result) := s.edit e
      let (last, results) := next.editAll rest
      (last, result :: results)

theorem editAll_append (s : Session) (before after : List Edit) :
    s.editAll (before ++ after) =
      (((s.editAll before).1.editAll after).1,
        (s.editAll before).2 ++ ((s.editAll before).1.editAll after).2) := by
  induction before generalizing s with
  | nil => rfl
  | cons e rest ih => simp [editAll, ih]

/-- A session that loads what its schema is written as stays as it is. -/
theorem edit_reload (s : Session) : s.edit (.load s.schema.toJson) =
    (s, .ok s.schema) := by
  rw [edit, Edit.apply, ofJson?_toJson]

end Session

/-- Reading undoes writing, for every schema, so no two schemas are written
alike; and a session may write its schema and load it again between any two
edits, without a change of what comes behind. -/
theorem written_schema_reads_back :
    (∀ s : Schema, Schema.ofJson? s.toJson = .ok s) ∧
    Function.Injective Schema.toJson ∧
    ∀ (session : Session) (before after : List Edit),
      let current := (session.editAll before).1
      let results := (session.editAll before).2
      session.editAll (before ++ after) =
        ((current.editAll after).1, results ++ (current.editAll after).2) ∧
      session.editAll (before ++ .load current.schema.toJson :: after) =
        ((current.editAll after).1, results ++ .ok current.schema ::
          (current.editAll after).2) := by
  refine ⟨ofJson?_toJson, toJson_injective, ?_⟩
  intro session before after
  refine ⟨session.editAll_append before after, ?_⟩
  rw [Session.editAll_append, Session.editAll, Session.edit_reload]

end SchemaForms
