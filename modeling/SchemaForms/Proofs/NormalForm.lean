import SchemaForms.Proofs.RoundTrip
import SchemaForms.Proofs.Grammar
import Mathlib.Data.List.Sort
import Mathlib.Data.String.Basic
/-!
Normal forms of schema documents.  A normal form has the members of a document
that say something, and its enums in order.  It is what the schema of the
document is written as (`normalize_of_describes`), so a normal form is all that
reading retains.
-/

namespace SchemaForms

/-- What a value stands for in a schema document. -/
inductive Position where
  | schema
  /-- An object of schemas. -/
  | schemas
  /-- An object with the tag and the mapping of a discriminator. -/
  | discriminator
  /-- An array of the strings of an enum. -/
  | enum
  /-- A value without parts. -/
  | plain

namespace Json

def isFalse : Json → Bool
  | .bool false => true
  | _ => false

/-- The text of a string.  No other value occurs in an enum. -/
def text : Json → String
  | .str s => s
  | _ => ""

end Json

namespace Keyword

/-- What the value of a keyword stands for in a schema with these members,
unless it is left out.  That other members are not let pass goes without saying
where another keyword shows the form. -/
def inSchema? (members : KeyMap Json) (value : Json) : Keyword → Option Position
  | .definitions | .properties | .optionalProperties => some .schemas
  | .elements | .values => some .schema
  | .enum => some .enum
  | .discriminator => some .discriminator
  | .ref | .type => some .plain
  | .additionalProperties =>
      if value.isFalse &&
          (members.contains properties.name ||
            members.contains optionalProperties.name) then
        none
      else some .plain
  | .tag | .mapping => none

/-- What the value of a keyword stands for in a discriminator, unless it is left
out. -/
def inDiscriminator? : Keyword → Option Position
  | .tag => some .plain
  | .mapping => some .schemas
  | _ => none

end Keyword

namespace Json

mutual

/-- The normal form of a value at a position. -/
def normalizeAs : Position → Json → Json
  | .schema, .obj members =>
      .obj (normalizeMembers
        (fun key value =>
          (Keyword.ofName? key).bind (Keyword.inSchema? members value)) members)
  | .schemas, .obj entries =>
      .obj (normalizeMembers (fun _ _ => some .schema) entries)
  | .discriminator, .obj members =>
      .obj (normalizeMembers
        (fun key _ => (Keyword.ofName? key).bind Keyword.inDiscriminator?)
        members)
  | .enum, .arr items =>
      .arr (items.insertionSort fun item next => item.text ≤ next.text)
  | _, value => value

def normalizeMembers (position? : String → Json → Option Position)
    {lo : Option String} : Entries Json lo → Entries Json lo
  | .nil => .nil
  | .cons key above value rest =>
      match position? key value with
      | some position =>
          .cons key above (normalizeAs position value)
            (normalizeMembers position? rest)
      | none => (normalizeMembers position? rest).widen above

end

/-- The normal form of a schema document: without the members that are no
keywords where they stand, without a flag that goes without saying, and with the
strings of every enum in order. -/
def normalize (value : Json) : Json :=
  value.normalizeAs .schema

/-- A member of a normal form is the normal form of the member. -/
theorem get?_normalizeMembers (position? : String → Json → Option Position)
    {lo : Option String} (members : Entries Json lo) (key : String) :
    (normalizeMembers position? members).get? key =
      (members.get? key).bind fun value =>
        (position? key value).map fun position =>
          value.normalizeAs position := by
  induction members with
  | nil => rfl
  | cons k above value rest ih =>
      rw [normalizeMembers]
      by_cases hkey : key = k
      · subst hkey
        cases hposition : position? key value <;> simp [hposition]
      · cases hposition : position? k value <;> simp [hkey, ih]

/-- The value that the normal form of a schema has at a keyword. -/
def normal? (members : KeyMap Json) (keyword : Keyword) : Option Json :=
  (members.get? keyword.name).bind fun value =>
    (keyword.inSchema? members value).map fun position =>
      value.normalizeAs position

end Json

/-- The strings of a set in order are the items of an enum in order. -/
theorem KeySet.keys_eq_insertionSort {values : KeySet} {items : List String}
    (hnodup : items.Nodup)
    (hvalues : ∀ item, values.contains item = true ↔ item ∈ items) :
    items.insertionSort (· ≤ ·) = values.keys := by
  have hperm : (items.insertionSort (· ≤ ·)).Perm values.keys := by
    refine (List.perm_insertionSort _ _).trans ?_
    rw [List.perm_ext_iff_of_nodup hnodup values.nodup_keys]
    intro item
    rw [Entries.mem_keys_iff, hvalues]
  have hsorted : values.keys.Pairwise (· ≤ ·) := by
    rw [Entries.keys, List.pairwise_map]
    exact values.toList_pairwise.imp fun hlt => le_of_lt hlt
  exact hperm.eq_of_pairwise' (List.pairwise_insertionSort _ _) hsorted

theorem normalizeAs_enum {values : KeySet} {items : List String}
    (hnodup : items.Nodup)
    (hvalues : ∀ item, values.contains item = true ↔ item ∈ items) :
    (Json.arr (items.map .str)).normalizeAs .enum = KeySet.toJson values := by
  rw [Json.normalizeAs, KeySet.toJson,
    ← KeySet.keys_eq_insertionSort hnodup hvalues]
  rw [List.map_insertionSort _ (fun item next : Json => item.text ≤ next.text)]
  intro item _ next _
  rfl

section

variable {members : KeyMap Json} {keyword : Keyword} {kind : FormKind}

theorem normal?_of_get? {value : Json} {position : Position}
    (hvalue : members.get? keyword.name = some value)
    (hposition : keyword.inSchema? members value = some position) :
    Json.normal? members keyword = some (value.normalizeAs position) := by
  rw [Json.normal?, hvalue, Option.bind_some, hposition, Option.map_some]

theorem normal?_of_position {position : Position}
    (hposition : ∀ value, keyword.inSchema? members value = some position) :
    Json.normal? members keyword = (members.get? keyword.name).map
      (Json.normalizeAs position) := by
  rw [Json.normal?]
  cases hvalue : members.get? keyword.name with
  | none => rfl
  | some value =>
      rw [Option.bind_some, hposition, Option.map_some, Option.map_some]

theorem normal?_of_unplaced
    (hposition : ∀ value, keyword.inSchema? members value = none) :
    Json.normal? members keyword = none := by
  rw [Json.normal?, Option.bind_eq_none_iff]
  intro value _
  rw [hposition, Option.map_none]

/-- Neither the document nor its schema has a keyword of another form. -/
theorem normal?_of_other {form : Form}
    (honly : FormKind.IsOnly members form.kind?)
    (hkeyword : keyword.kind? = some kind) (hother : form.kind? ≠ some kind) :
    Json.normal? members keyword = form.written? keyword := by
  have habsent : members.get? keyword.name = none := by
    rw [Option.eq_none_iff_forall_ne_some]
    intro value hvalue
    exact hother (honly.kind?_eq keyword hkeyword hvalue)
  have hunwritten : form.written? keyword = none := by
    rw [Option.eq_none_iff_forall_ne_some]
    intro value hvalue
    exact hother ((Form.kind?_of_written? hvalue).symm.trans hkeyword)
  rw [Json.normal?, habsent, hunwritten, Option.bind_none]

/-- The flag is written where it is true, and where nothing else shows the
form. -/
theorem normal?_additionalProperties
    {required optional : Option (KeyMap Schema)} {additional : Bool}
    (honly : FormKind.IsOnly members (some .properties))
    (hrequired : DescribesMap? (members.get? Keyword.properties.name) required)
    (hoptional : DescribesMap? (members.get? Keyword.optionalProperties.name)
      optional)
    (hadditional : (members.get? Keyword.additionalProperties.name).getD
        (.bool false) = .bool additional) :
    Json.normal? members .additionalProperties =
      (Form.properties required optional additional).written?
        .additionalProperties := by
  have hrequired' : members.contains Keyword.properties.name =
      required.isSome :=
    hrequired.isSome_eq.symm
  have hoptional' : members.contains Keyword.optionalProperties.name =
      optional.isSome :=
    hoptional.isSome_eq.symm
  rw [Json.normal?, Form.written?]
  cases hflag : members.get? Keyword.additionalProperties.name with
  | some value =>
      rw [hflag, Option.getD_some] at hadditional
      subst hadditional
      rw [Option.bind_some, Keyword.inSchema?, hrequired', hoptional']
      cases additional <;> cases required <;> cases optional <;> rfl
  | none =>
      rw [hflag] at hadditional
      cases hadditional
      -- Without the flag, one of the two maps shows the form.
      obtain ⟨keyword, hkeyword, hcontains⟩ := (honly .properties).2 rfl
      have hsome : required.isSome = true ∨ optional.isSome = true := by
        rw [← hrequired', ← hoptional']
        simp only [FormKind.keywords, List.mem_cons, List.not_mem_nil, or_false]
          at hkeyword
        rcases hkeyword with rfl | rfl | rfl
        · exact .inl hcontains
        · exact .inr hcontains
        · rw [Entries.contains, hflag] at hcontains
          cases hcontains
      rcases hsome with hsome | hsome <;>
        simp [Option.isNone_eq_false_iff.2 hsome]

/-- The normal form of a schema has the members that the schema is written
with. -/
theorem normalizeAs_schema {s : Schema}
    (hdefinitions : Json.normal? members .definitions = s.written? .definitions)
    (honly : FormKind.IsOnly members s.form.kind?)
    (hform : ∀ keyword, keyword.kind? ≠ none → keyword.kind? = s.form.kind? →
      Json.normal? members keyword = s.form.written? keyword) :
    (Json.obj members).normalizeAs .schema = s.toJson := by
  have hmembers : ∀ keyword, Json.normal? members keyword =
      s.written? keyword := by
    intro keyword
    cases hkeyword : keyword.kind? with
    | some kind =>
        rw [Schema.written?_of_kind? hkeyword]
        by_cases hkind : s.form.kind? = some kind
        · exact hform keyword (by simp [hkeyword]) (hkeyword.trans hkind.symm)
        · exact normal?_of_other honly hkeyword hkind
    | none =>
        cases keyword with
        | definitions => exact hdefinitions
        | tag =>
            exact (normal?_of_unplaced fun _ => rfl).trans
              (s.form.written?_of_kind? rfl).symm
        | mapping =>
            exact (normal?_of_unplaced fun _ => rfl).trans
              (s.form.written?_of_kind? rfl).symm
        | _ => cases hkeyword
  rw [Json.normalizeAs, Schema.toJson_eq_obj]
  congr 1
  apply Entries.ext_get?
  intro key
  rw [Json.get?_normalizeMembers]
  cases hkey : Keyword.ofName? key with
  | none => simp [Schema.get?_members_of_unknown _ hkey]
  | some keyword =>
      rw [← Keyword.name_of_ofName? hkey, Schema.get?_members, ← hmembers]
      rfl

theorem normalizeAs_discriminator {tag : String} {mapping : KeyMap Schema}
    (htag : members.get? Keyword.tag.name = some (.str tag))
    (hmapping : (members.get? Keyword.mapping.name).map
        (Json.normalizeAs .schemas) = some (.obj (encodeEntries mapping))) :
    (Json.obj members).normalizeAs .discriminator =
      .object [(Keyword.tag.name, .str tag),
        (Keyword.mapping.name, .obj (encodeEntries mapping))] := by
  rw [Json.normalizeAs, Json.object]
  congr 1
  apply Entries.ext_get?
  intro key
  rw [Json.get?_normalizeMembers]
  cases hkey : Keyword.ofName? key with
  | none =>
      rw [get?_of_unknown rfl hkey, Option.bind_eq_none_iff]
      intro value _
      rfl
  | some keyword =>
      rw [← Keyword.name_of_ofName? hkey, KeyMap.get?_ofList, Option.bind_some]
      cases keyword with
      | tag =>
          rw [htag]
          rfl
      | mapping =>
          rw [Option.map_eq_bind] at hmapping
          exact hmapping
      | _ => exact Option.bind_eq_none_iff.2 fun _ _ => rfl

end

mutual

/-- A document is written as its normal form. -/
theorem normalize_of_describes : (s : Schema) → {value : Json} →
    Describes value s →
    value.normalizeAs .schema = s.toJson
  | ⟨definitions, form⟩, _, .obj hdefinitions honly hform =>
      normalizeAs_schema
        ((normal?_of_position fun _ => rfl).trans
          (map_normalize_of_describesMap? definitions hdefinitions))
        honly (normal?_of_describesForm form hform honly)

theorem normal?_of_describesForm : (form : Form) → {members : KeyMap Json} →
    DescribesForm members form → FormKind.IsOnly members form.kind? →
      ∀ keyword, keyword.kind? ≠ none → keyword.kind? = form.kind? →
        Json.normal? members keyword = form.written? keyword
  | .empty, _, _, _, _, hsome, hkind => absurd hkind hsome
  | .ref name, _, .ref hname, _, keyword, _, hkeyword => by
      obtain rfl : keyword = .ref := FormKind.eq_keyword hkeyword nofun
      exact normal?_of_get? hname rfl
  | .type name, _, .type hname, _, keyword, _, hkeyword => by
      obtain rfl : keyword = .type := FormKind.eq_keyword hkeyword nofun
      exact normal?_of_get? hname rfl
  | .enum values, _, .enum hitems hnodup hvalues, _, keyword, _, hkeyword => by
      obtain rfl : keyword = .enum := FormKind.eq_keyword hkeyword nofun
      rw [normal?_of_get? hitems rfl, normalizeAs_enum hnodup hvalues]
      rfl
  | .elements schema, _, .elements hvalue hschema, _, keyword, _, hkeyword => by
      obtain rfl : keyword = .elements := FormKind.eq_keyword hkeyword nofun
      rw [normal?_of_get? hvalue rfl, normalize_of_describes schema hschema]
      rfl
  | .properties required optional additional, _,
      .properties hrequired hoptional hadditional, honly, keyword,
      _, hkeyword => by
      have hmem := FormKind.mem_keywords_iff.2 hkeyword
      simp only [FormKind.keywords, List.mem_cons, List.not_mem_nil, or_false]
        at hmem
      rcases hmem with rfl | rfl | rfl
      · exact (normal?_of_position fun _ => rfl).trans
          (map_normalize_of_describesMap? required hrequired)
      · exact (normal?_of_position fun _ => rfl).trans
          (map_normalize_of_describesMap? optional hoptional)
      · exact normal?_additionalProperties honly hrequired hoptional hadditional
  | .values schema, _, .values hvalue hschema, _, keyword, _, hkeyword => by
      obtain rfl : keyword = .values := FormKind.eq_keyword hkeyword nofun
      rw [normal?_of_get? hvalue rfl, normalize_of_describes schema hschema]
      rfl
  | .discriminator tag mapping, _, .discriminator hinner htag hmapping, _,
      keyword, _, hkeyword => by
        obtain rfl : keyword = .discriminator :=
          FormKind.eq_keyword hkeyword nofun
        rw [normal?_of_get? hinner rfl, normalizeAs_discriminator htag
          (map_normalize_of_describesMap? (some mapping) hmapping)]
        rfl

theorem map_normalize_of_describesMap? :
    (schemas : Option (Entries Schema none)) →
    {value? : Option Json} → DescribesMap? value? schemas →
      value?.map (Json.normalizeAs .schemas) = schemas.map fun schemas =>
        .obj (encodeEntries schemas)
  | none, _, .none => rfl
  | some schemas, _, .some hentries => by
      rw [Option.map_some, Option.map_some, Json.normalizeAs]
      rw [normalizeMembers_of_describesEntries schemas hentries]

theorem normalizeMembers_of_describesEntries : {lo : Option String} →
    (schemas : Entries Schema lo) → {entries : Entries Json lo} →
    DescribesEntries entries schemas →
      Json.normalizeMembers (fun _ _ => some .schema) entries =
        encodeEntries schemas
  | _, .nil, _, .nil => rfl
  | _, .cons _ _ schema others, _, .cons hschema hothers => by
      rw [Json.normalizeMembers, encodeEntries]
      dsimp only
      rw [normalize_of_describes schema hschema,
        normalizeMembers_of_describesEntries others hothers]

end

/-- A document that is read is written as its normal form.  So the normal form
is read as the same schema, reading and writing keeps it, and two documents mean
the same when their normal forms are the same. -/
theorem writing_normalizes_reading :
    (∀ value schema, Schema.ofJson? value = .ok schema →
      schema.toJson = value.normalize ∧
      Schema.ofJson? value.normalize = .ok schema ∧
      (∀ again, Schema.ofJson? value.normalize = .ok again →
        again.toJson = value.normalize) ∧
      value.normalize.normalize = value.normalize) ∧
    ∀ value other schema otherSchema, Schema.ofJson? value = .ok schema →
      Schema.ofJson? other = .ok otherSchema →
        (schema = otherSchema ↔ value.normalize = other.normalize) := by
  have hwrites : ∀ {value schema}, Schema.ofJson? value = .ok schema →
      schema.toJson = value.normalize := by
    intro value schema hread
    exact (normalize_of_describes schema (ofJson?_eq_ok_iff.1 hread)).symm
  refine ⟨?_, ?_⟩
  · intro value schema hread
    have hnormal : Schema.ofJson? value.normalize = .ok schema := by
      rw [← hwrites hread, ofJson?_toJson]
    refine ⟨hwrites hread, hnormal, ?_, ?_⟩
    · intro again hagain
      cases hnormal.symm.trans hagain
      exact hwrites hread
    · rw [← hwrites hnormal, hwrites hread]
  · intro value other schema otherSchema hread hother
    rw [← hwrites hread, ← hwrites hother]
    exact toJson_injective.eq_iff.symm

/-- The shapes again, with the enum the other way round and without what goes
without saying. -/
def plainShapeDocument : Json :=
  .object [
    ("definitions", .object [
      ("color", .object [("enum", .arr [.str "blue", .str "red"])])]),
    ("discriminator", .object [
      ("tag", .str "shape"),
      ("mapping", .object [
        ("circle", .object [
          ("properties", .object [
            ("radius", .object [("type", .str "float64")]),
            ("color", .object [("ref", .str "color")])])]),
        ("point", .object [
          ("optionalProperties", .object [
            ("labels", .object
              [("elements", .object [("type", .str "string")])])]),
          ("additionalProperties", .bool true)])])])]

example : shapeDocument.normalize = plainShapeDocument := by rfl

theorem writing_normalizes_reading_shapes :
    ∃ schema, Schema.ofJson? shapeDocument = .ok schema ∧
      schema.toJson = shapeDocument.normalize ∧
      Schema.ofJson? shapeDocument.normalize = .ok schema ∧
      shapeDocument.normalize.normalize = shapeDocument.normalize ∧
      Schema.ofJson? plainShapeDocument = .ok schema := by
  obtain ⟨hwrites, hsame⟩ := writing_normalizes_reading
  obtain ⟨schema, hread⟩ : ∃ schema, Schema.ofJson? shapeDocument =
    .ok schema := ⟨_, rfl⟩
  obtain ⟨plain, hplain⟩ : ∃ schema, Schema.ofJson? plainShapeDocument =
    .ok schema := ⟨_, rfl⟩
  obtain ⟨-, hnormal, hkept, hfixed⟩ := hwrites shapeDocument schema hread
  have hnormals : shapeDocument.normalize = plainShapeDocument.normalize := by
    have hshapes : shapeDocument.normalize = plainShapeDocument := by rfl
    have hplain : plainShapeDocument.normalize = plainShapeDocument := by rfl
    exact hshapes.trans hplain.symm
  have hschemas : schema = plain :=
    (hsame shapeDocument plainShapeDocument schema plain hread hplain).2
      hnormals
  exact ⟨schema, hread, hkept schema hnormal, hnormal, hfixed,
    hschemas ▸ hplain⟩

end SchemaForms
