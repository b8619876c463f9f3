import SchemaForms.Schema.Decode
import SchemaForms.Proofs.Result
/-!
Documents and the schemas that they describe.  `Describes` says what a document
means, member by member and without an order among them; reading a document
yields the schema that it describes, and fails if it describes none
(`ofJson?_eq_ok_iff`).
-/

namespace SchemaForms

/-- The kind of the form that a keyword belongs to. -/
def Keyword.kind? : Keyword → Option FormKind
  | .ref => some .ref
  | .type => some .type
  | .enum => some .enum
  | .elements => some .elements
  | .properties | .optionalProperties | .additionalProperties =>
      some .properties
  | .values => some .values
  | .discriminator => some .discriminator
  | .definitions | .tag | .mapping => none

theorem FormKind.mem_keywords_iff {kind : FormKind} {keyword : Keyword} :
    keyword ∈ kind.keywords ↔ keyword.kind? = some kind := by
  cases kind <;> cases keyword <;> decide

namespace FormKind

variable {members : KeyMap Json} {kind other : FormKind}
  {kind? other? : Option FormKind} {keyword : Keyword} {path : SchemaPath}

/-- An object has a keyword of this kind. -/
def IsIn (members : KeyMap Json) (kind : FormKind) : Prop :=
  ∃ keyword ∈ kind.keywords, members.contains keyword.name = true

/-- An object has keywords of this kind and of no other, or none at all. -/
def IsOnly (members : KeyMap Json) (kind? : Option FormKind) : Prop :=
  ∀ kind, kind.IsIn members ↔ kind? = some kind

/-- Every kind but that of the properties forms has one keyword. -/
theorem eq_keyword (hkeyword : keyword.kind? = some kind)
    (hkind : kind ≠ .properties) :
    keyword = kind.keyword := by
  rw [← mem_keywords_iff] at hkeyword
  cases kind with
  | properties => exact absurd rfl hkind
  | _ => exact List.mem_singleton.1 hkeyword

/-- A keyword that is there tells the kind. -/
theorem IsOnly.kind?_eq (honly : IsOnly members kind?) (keyword : Keyword)
    {value : Json} (hkeyword : keyword.kind? = some kind)
    (hvalue : members.get? keyword.name = some value) :
    kind? = some kind :=
  (honly kind).1 ⟨keyword, mem_keywords_iff.2 hkeyword,
    Entries.contains_iff.2 ⟨value, hvalue⟩⟩

theorem IsOnly.exists_get? (honly : IsOnly members (some kind))
    (hkind : kind ≠ .properties) :
    ∃ value, members.get? kind.keyword.name = some value := by
  obtain ⟨keyword, hkeyword, hcontains⟩ := (honly kind).2 rfl
  rw [← eq_keyword (mem_keywords_iff.1 hkeyword) hkind]
  exact Entries.contains_iff.1 hcontains

theorem IsOnly.unique (honly : IsOnly members kind?)
    (honly' : IsOnly members other?) :
    kind? = other? := by
  apply Option.ext
  intro kind
  rw [← honly kind, honly' kind]

theorem mem_all (kind : FormKind) : kind ∈ all := by
  cases kind <;> decide

theorem isSome_present?_iff : (kind.present? members).isSome = true ↔
    kind.IsIn members := by
  rw [present?, List.find?_isSome]
  rfl

theorem map_fst_present :
    (present members).map Prod.fst = all.filter fun kind =>
      (kind.present? members).isSome := by
  rw [present, List.map_filterMap, ← List.filterMap_eq_filter]
  congr 1
  funext kind
  cases hpresent : kind.present? members <;> simp [Option.guard, hpresent]

theorem mem_present_iff : kind ∈ (present members).map Prod.fst ↔
    kind.IsIn members := by
  rw [map_fst_present, List.mem_filter, isSome_present?_iff]
  exact and_iff_right (mem_all kind)

theorem nodup_present : ((present members).map Prod.fst).Nodup := by
  rw [map_fst_present]
  exact List.Pairwise.filter _ (by decide)

/-- The request of an object is the one kind of which it has keywords. -/
theorem requested?_eq_ok_iff : requested? path members = .ok kind? ↔
    IsOnly members kind? := by
  have hmem : ∀ kind, kind.IsIn members ↔
      kind ∈ (present members).map Prod.fst :=
    fun kind => mem_present_iff.symm
  have hnodup : ((present members).map Prod.fst).Nodup := nodup_present
  rw [requested?]
  split
  · rename_i hpresent
    rw [hpresent] at hmem
    have honly : IsOnly members none := by
      intro kind
      simp [hmem]
    constructor
    · intro h
      cases h
      exact honly
    · intro h
      rw [h.unique honly]
  · rename_i kind keyword hpresent
    rw [hpresent] at hmem
    have honly : IsOnly members (some kind) := by
      intro other
      simp [hmem, eq_comm]
    constructor
    · intro h
      cases h
      exact honly
    · intro h
      rw [h.unique honly]
  · rename_i kind first other second rest hpresent
    rw [hpresent] at hmem hnodup
    constructor
    · intro h
      cases h
    · intro honly
      have hkind := (honly kind).1 ((hmem kind).2 (by simp))
      have hother := (honly other).1 ((hmem other).2 (by simp))
      have hsame : kind = other := Option.some.inj (hkind.symm.trans hother)
      simp [hsame] at hnodup

end FormKind

namespace Schema

variable {keyword : Keyword} {path : SchemaPath} {lo : Option String}
  {members : Entries Json lo}

theorem decodeMember_eq : decodeMember keyword path members =
    match members.get? keyword.name with
    | some value => decode path value
    | none => .error ⟨path, .missing keyword⟩ := by
  induction members with
  | nil => rfl
  | cons key above value rest ih =>
      rw [decodeMember, Entries.get?_cons]
      split
      · rfl
      · exact ih

theorem decodeMapMember_eq : decodeMapMember keyword path members =
    match members.get? keyword.name with
    | some (.obj entries) => some <$> decodeEntries path entries
    | some other => .error ⟨path, .notObject keyword other.kind⟩
    | none => .ok none := by
  induction members with
  | nil => rfl
  | cons key above value rest ih =>
      rw [decodeMapMember.eq_def, Entries.get?_cons]
      dsimp only
      split
      · cases value <;> rfl
      · exact ih

def decodeTagged (path : SchemaPath) (members : KeyMap Json) :
    Except SchemaError (String × KeyMap Schema) := do
  let tag ← stringMember .tag path members
  match ← decodeMapMember .mapping (path.under .mapping) members with
  | some mapping => return (tag, mapping)
  | none => throw ⟨path, .missing .mapping⟩

theorem decodeDiscriminator_eq : decodeDiscriminator path members =
    match members.get? Keyword.discriminator.name with
    | some (.obj inner) => decodeTagged path inner
    | some other => .error ⟨path, .notObject .discriminator other.kind⟩
    | none => .error ⟨path, .missing .discriminator⟩ := by
  induction members with
  | nil => rfl
  | cons key above value rest ih =>
      rw [decodeDiscriminator.eq_def, Entries.get?_cons]
      dsimp only
      split
      · cases value <;> rfl
      · exact ih

end Schema

mutual

/-- A document describes a schema: it is an object that writes the definitions
and the form, with keywords of no other form. -/
inductive Describes : Json → Schema → Prop where
  | obj {members : KeyMap Json} {definitions : Option (KeyMap Schema)}
      {form : Form} (hdefinitions :
        DescribesMap? (members.get? Keyword.definitions.name) definitions)
      (hkind : FormKind.IsOnly members form.kind?)
      (hform : DescribesForm members form) :
      Describes (.obj members) ⟨definitions, form⟩

/-- The members of an object describe a form. -/
inductive DescribesForm : KeyMap Json → Form → Prop where
  | empty {members : KeyMap Json} : DescribesForm members .empty
  | ref {members : KeyMap Json} {name : String}
      (hname : members.get? Keyword.ref.name = some (.str name)) :
      DescribesForm members (.ref name)
  | type {members : KeyMap Json} {type : PrimitiveType}
      (htype : members.get? Keyword.type.name = some (.str type.name)) :
      DescribesForm members (.type type)
  /-- An enum lists its strings in any order, each of them once. -/
  | enum {members : KeyMap Json} {values : KeySet} {items : List String}
      (hitems : members.get? Keyword.enum.name = some (.arr (items.map .str)))
      (hnodup : items.Nodup)
      (hvalues : ∀ item, values.contains item = true ↔ item ∈ items) :
      DescribesForm members (.enum values)
  | elements {members : KeyMap Json} {value : Json} {schema : Schema}
      (hvalue : members.get? Keyword.elements.name = some value)
      (hschema : Describes value schema) :
      DescribesForm members (.elements schema)
  /-- Other members are let pass only when the document says so. -/
  | properties {members : KeyMap Json}
      {required optional : Option (KeyMap Schema)} {additional : Bool}
      (hrequired : DescribesMap? (members.get? Keyword.properties.name)
        required)
      (hoptional : DescribesMap? (members.get? Keyword.optionalProperties.name)
        optional)
      (hadditional : (members.get? Keyword.additionalProperties.name).getD
          (.bool false) = .bool additional) :
      DescribesForm members (.properties required optional additional)
  | values {members : KeyMap Json} {value : Json} {schema : Schema}
      (hvalue : members.get? Keyword.values.name = some value)
      (hschema : Describes value schema) :
      DescribesForm members (.values schema)
  | discriminator {members inner : KeyMap Json} {tag : String}
      {mapping : KeyMap Schema}
      (hinner : members.get? Keyword.discriminator.name = some (.obj inner))
      (htag : inner.get? Keyword.tag.name = some (.str tag))
      (hmapping : DescribesMap? (inner.get? Keyword.mapping.name)
        (some mapping)) :
      DescribesForm members (.discriminator tag mapping)

/-- A value that may be missing describes a map of schemas that is missing when
the value is. -/
inductive DescribesMap? : Option Json → Option (KeyMap Schema) → Prop where
  | none : DescribesMap? none none
  | some {entries : KeyMap Json} {schemas : KeyMap Schema}
      (h : DescribesEntries entries schemas) :
      DescribesMap? (some (.obj entries)) (some schemas)

inductive DescribesEntries : {lo : Option String} → Entries Json lo →
    Entries Schema lo → Prop where
  | nil {lo : Option String} : @DescribesEntries lo .nil .nil
  | cons {lo : Option String} {key : String} {above : Above lo key}
      {value : Json} {schema : Schema} {rest : Entries Json (some key)}
      {others : Entries Schema (some key)} (hschema : Describes value schema)
      (hothers : DescribesEntries rest others) :
      DescribesEntries (.cons key above value rest)
        (.cons key above schema others)

end

theorem DescribesMap?.isSome_eq {value? : Option Json}
    {schemas : Option (KeyMap Schema)}
    (hdescribes : DescribesMap? value? schemas) :
    schemas.isSome = value?.isSome := by
  cases hdescribes <;> rfl

/-- Wherever a document is read, the schema that comes out is the one that it
describes. -/
def ReadsAsDescribed (value : Json) : Prop :=
  ∀ path s, Schema.decode path value = .ok s ↔ Describes value s

namespace Schema

variable {keyword : Keyword} {path : SchemaPath} {members : KeyMap Json}

theorem stringMember_eq_ok_iff {s : String} :
    stringMember keyword path members = .ok s ↔ members.get? keyword.name =
      some (.str s) := by
  rw [stringMember]
  rcases members.get? keyword.name with _ | value
  · simp
  · cases value <;> simp

theorem booleanMember_eq_ok_iff {b : Bool} :
    booleanMember keyword path members = .ok b ↔
    (members.get? keyword.name).getD (.bool false) = .bool b := by
  rw [booleanMember]
  rcases members.get? keyword.name with _ | value
  · simp
  · cases value <;> simp

theorem typeMember_eq_ok_iff {type : PrimitiveType} :
    typeMember path members = .ok type ↔
    members.get? Keyword.type.name = some (.str type.name) := by
  rw [typeMember, bind_eq_ok_iff]
  constructor
  · rintro ⟨name, hname, htype⟩
    rw [stringMember_eq_ok_iff] at hname
    split at htype
    · rename_i found hfound
      cases htype
      rw [hname, PrimitiveType.name_of_ofName? hfound]
    · cases htype
  · intro htype
    refine ⟨type.name, stringMember_eq_ok_iff.2 htype, ?_⟩
    rw [PrimitiveType.ofName?_name]
    rfl

/-- The items of an enum are strings that are new, each of them, and are added
to the set. -/
theorem enumItems_eq_ok_iff {index : Nat} {seen values : KeySet}
    {items : List Json} :
    enumItems path index seen items = .ok values ↔
      ∃ strings : List String, items = strings.map .str ∧ strings.Nodup ∧
        (∀ s ∈ strings, ¬ seen.contains s = true) ∧
        ∀ s, values.contains s = true ↔ seen.contains s = true ∨
          s ∈ strings := by
  induction items generalizing index seen with
  | nil =>
      rw [enumItems, Except.ok.injEq]
      constructor
      · rintro rfl
        exact ⟨[], by simp⟩
      · rintro ⟨strings, hstrings, -, -, hvalues⟩
        have hnil : strings = [] := List.map_eq_nil_iff.1 hstrings.symm
        apply KeySet.ext_contains
        intro s
        simpa [hnil] using (hvalues s).symm
  | cons item rest ih =>
      constructor
      · intro hread
        cases item with
        | str s =>
            rw [enumItems] at hread
            split at hread
            · cases hread
            · rename_i hnew
              obtain ⟨strings, rfl, hnodup, hunseen, hvalues⟩ := ih.1 hread
              simp only [KeySet.contains_insert, not_or] at hunseen hvalues
              refine ⟨s :: strings, rfl, ?_, ?_, ?_⟩
              · exact List.nodup_cons.2 ⟨fun hs => (hunseen s hs).1 rfl, hnodup⟩
              · intro t ht
                rcases List.mem_cons.1 ht with rfl | ht
                · exact hnew
                · exact (hunseen t ht).2
              · intro t
                rw [hvalues, List.mem_cons, or_assoc, or_left_comm]
        | _ => cases hread
      · rintro ⟨strings, hstrings, hnodup, hunseen, hvalues⟩
        cases strings with
        | nil => cases hstrings
        | cons s strings =>
            rw [List.map_cons, List.cons.injEq] at hstrings
            obtain ⟨rfl, hrest⟩ := hstrings
            rw [List.nodup_cons] at hnodup
            rw [enumItems, if_neg (hunseen s List.mem_cons_self)]
            refine ih.2 ⟨strings, hrest, hnodup.2, ?_, ?_⟩
            · intro t ht
              rw [KeySet.contains_insert, not_or]
              refine ⟨?_, hunseen t (List.mem_cons_of_mem s ht)⟩
              rintro rfl
              exact hnodup.1 ht
            · intro t
              rw [hvalues, KeySet.contains_insert, List.mem_cons,
                or_assoc, or_left_comm]

theorem enumMember_eq_ok_iff {values : KeySet} :
    enumMember path members = .ok values ↔
    ∃ items : List String, members.get? Keyword.enum.name =
      some (.arr (items.map .str)) ∧
      items.Nodup ∧ ∀ item, values.contains item = true ↔ item ∈ items := by
  rw [enumMember]
  split
  · rename_i items hitems
    rw [enumItems_eq_ok_iff, hitems]
    have hnone : ∀ s, ¬ (Entries.nil : KeySet).contains s = true := by
      intro s
      simp [Entries.contains]
    simp [hnone]
  · rename_i hother
    constructor
    · intro hread
      cases hread
    · rintro ⟨items, hitems, -⟩
      exact absurd hitems (hother _)

end Schema

namespace Schema

-- Each of these readers reads as described if all values below its object do;
-- that they do is what the induction on the height of the document supplies.
variable {keyword : Keyword} {path : SchemaPath}

theorem decodeEntries_eq_ok_iff {lo : Option String} {entries : Entries Json lo}
    {schemas : Entries Schema lo}
    (hvalues : ∀ key value, entries.get? key = some value →
      ReadsAsDescribed value) :
    decodeEntries path entries = .ok schemas ↔
      DescribesEntries entries schemas := by
  induction entries with
  | nil =>
      rw [decodeEntries]
      constructor
      · intro hread
        cases hread
        exact .nil
      · intro hdescribes
        cases hdescribes
        rfl
  | cons key above value rest ih =>
      have hvalue : ReadsAsDescribed value := hvalues key value (by simp)
      have hrest : ∀ key value, rest.get? key = some value →
          ReadsAsDescribed value :=
        fun key' value' hget =>
          hvalues key' value' (Entries.get?_cons_of_rest hget)
      rw [decodeEntries, bind_eq_ok_iff]
      constructor
      · rintro ⟨schema, hschema, hread⟩
        obtain ⟨others, hothers, hread⟩ := bind_eq_ok_iff.1 hread
        cases hread
        exact .cons ((hvalue _ _).1 hschema) ((ih hrest).1 hothers)
      · intro hdescribes
        cases hdescribes with
        | cons hschema hothers =>
            refine ⟨_, (hvalue _ _).2 hschema, ?_⟩
            rw [(ih hrest).2 hothers]
            rfl

section

variable {members : KeyMap Json}
  (hlower : ∀ value : Json, value.height < (Json.obj members).height →
    ReadsAsDescribed value)

include hlower

theorem decodeMember_eq_ok_iff {s : Schema} :
    decodeMember keyword path members = .ok s ↔
    ∃ value, members.get? keyword.name = some value ∧ Describes value s := by
  rw [decodeMember_eq]
  rcases hvalue : members.get? keyword.name with _ | value
  · simp
  · simpa using hlower value (Json.height_lt_obj hvalue) path s

theorem decodeMapMember_eq_ok_iff {schemas : Option (KeyMap Schema)} :
    decodeMapMember keyword path members = .ok schemas ↔
      DescribesMap? (members.get? keyword.name) schemas := by
  rw [decodeMapMember_eq]
  rcases hget : members.get? keyword.name with _ | value
  · rw [Except.ok.injEq]
    constructor
    · rintro rfl
      exact .none
    · intro hdescribes
      cases hdescribes
      rfl
  · cases value with
    | obj entries =>
        have hread : ∀ schemas, decodeEntries path entries = .ok schemas ↔
            DescribesEntries entries schemas := fun schemas =>
          decodeEntries_eq_ok_iff fun key value hvalue =>
            hlower value (Nat.lt_trans (Json.height_lt_obj hvalue)
              (Json.height_lt_obj hget))
        rw [map_eq_ok_iff]
        constructor
        · rintro ⟨schemas, hschemas, rfl⟩
          exact .some ((hread schemas).1 hschemas)
        · intro hdescribes
          cases hdescribes with
          | some hdescribes => exact ⟨_, (hread _).2 hdescribes, rfl⟩
    | _ =>
        constructor
        · intro hread
          cases hread
        · intro hdescribes
          cases hdescribes

theorem decodeTagged_eq_ok_iff {tag : String} {mapping : KeyMap Schema} :
    decodeTagged path members = .ok (tag, mapping) ↔
      members.get? Keyword.tag.name = some (.str tag) ∧
        DescribesMap? (members.get? Keyword.mapping.name) (some mapping) := by
  rw [decodeTagged, bind_eq_ok_iff]
  constructor
  · rintro ⟨found, htag, hread⟩
    obtain ⟨schemas, hmapping, hread⟩ := bind_eq_ok_iff.1 hread
    cases schemas with
    | none => cases hread
    | some schemas =>
        cases hread
        exact ⟨stringMember_eq_ok_iff.1 htag,
          (decodeMapMember_eq_ok_iff hlower).1 hmapping⟩
  · rintro ⟨htag, hmapping⟩
    refine ⟨tag, stringMember_eq_ok_iff.2 htag, ?_⟩
    rw [(decodeMapMember_eq_ok_iff hlower).2 hmapping]
    rfl

theorem decodeDiscriminator_eq_ok_iff {tag : String} {mapping : KeyMap Schema} :
    decodeDiscriminator path members = .ok (tag, mapping) ↔
      ∃ inner, members.get? Keyword.discriminator.name = some (.obj inner) ∧
        inner.get? Keyword.tag.name = some (.str tag) ∧
        DescribesMap? (inner.get? Keyword.mapping.name) (some mapping) := by
  rw [decodeDiscriminator_eq]
  rcases hget : members.get? Keyword.discriminator.name with _ | value
  · simp
  · cases value with
    | obj inner =>
        have hinner : ∀ value : Json, value.height < (Json.obj inner).height →
            ReadsAsDescribed value :=
          fun value hlt =>
            hlower value (Nat.lt_trans hlt (Json.height_lt_obj hget))
        simpa using decodeTagged_eq_ok_iff hinner
    | _ => simp

/-- Reads the form of a kind from an object that has keywords of this kind. -/
def decodeForm (path : SchemaPath) (members : KeyMap Json) :
    Option FormKind → Except SchemaError Form
  | none => .ok .empty
  | some .ref => .ref <$> stringMember .ref path members
  | some .type => .type <$> typeMember path members
  | some .enum => .enum <$> enumMember path members
  | some .elements =>
      .elements <$> decodeMember .elements (path.under .elements) members
  | some .properties => do
      let required ← decodeMapMember .properties
          (path.under .properties) members
      let optional ← decodeMapMember .optionalProperties
          (path.under .optionalProperties) members
      let additional ← booleanMember .additionalProperties path members
      return .properties required optional additional
  | some .values =>
      .values <$> decodeMember .values (path.under .values) members
  | some .discriminator => do
      let (tag, mapping) ← decodeDiscriminator
          (path.under .discriminator) members
      return .discriminator tag mapping

omit hlower in
/-- A schema is read in three steps: its definitions, the kind of its form, and
the form. -/
theorem decode_obj_eq : decode path (.obj members) = (do
    let definitions ←
      decodeMapMember .definitions (path.under .definitions) members
    let kind? ← FormKind.requested? path members
    let form ← decodeForm path members kind?
    return ⟨definitions, form⟩) := by
  rw [decode]
  congr 1
  funext definitions
  congr 1
  funext kind?
  rcases kind? with _ | kind
  · rfl
  · cases kind <;> simp [decodeForm]

theorem describesForm_of_decodeForm {kind? : Option FormKind} {form : Form}
    (hread : decodeForm path members kind? = .ok form) :
    form.kind? = kind? ∧ DescribesForm members form := by
  rcases kind? with _ | kind
  · cases hread
    exact ⟨rfl, .empty⟩
  · cases kind with
    | ref =>
        obtain ⟨name, hname, rfl⟩ := map_eq_ok_iff.1 hread
        exact ⟨rfl, .ref (stringMember_eq_ok_iff.1 hname)⟩
    | type =>
        obtain ⟨type, htype, rfl⟩ := map_eq_ok_iff.1 hread
        exact ⟨rfl, .type (typeMember_eq_ok_iff.1 htype)⟩
    | enum =>
        obtain ⟨values, hvalues, rfl⟩ := map_eq_ok_iff.1 hread
        obtain ⟨items, hitems, hnodup, hmem⟩ := enumMember_eq_ok_iff.1 hvalues
        exact ⟨rfl, .enum hitems hnodup hmem⟩
    | elements =>
        obtain ⟨schema, hschema, rfl⟩ := map_eq_ok_iff.1 hread
        obtain ⟨value, hvalue, hdescribes⟩ :=
          (decodeMember_eq_ok_iff hlower).1 hschema
        exact ⟨rfl, .elements hvalue hdescribes⟩
    | properties =>
        obtain ⟨required, hrequired, hread⟩ := bind_eq_ok_iff.1 hread
        obtain ⟨optional, hoptional, hread⟩ := bind_eq_ok_iff.1 hread
        obtain ⟨additional, hadditional, hread⟩ := bind_eq_ok_iff.1 hread
        cases hread
        exact ⟨rfl, .properties ((decodeMapMember_eq_ok_iff hlower).1 hrequired)
          ((decodeMapMember_eq_ok_iff hlower).1 hoptional)
            (booleanMember_eq_ok_iff.1 hadditional)⟩
    | values =>
        obtain ⟨schema, hschema, rfl⟩ := map_eq_ok_iff.1 hread
        obtain ⟨value, hvalue, hdescribes⟩ :=
          (decodeMember_eq_ok_iff hlower).1 hschema
        exact ⟨rfl, .values hvalue hdescribes⟩
    | discriminator =>
        obtain ⟨⟨tag, mapping⟩, htagged, hread⟩ := bind_eq_ok_iff.1 hread
        cases hread
        obtain ⟨inner, hinner, htag, hmapping⟩ :=
          (decodeDiscriminator_eq_ok_iff hlower).1 htagged
        exact ⟨rfl, .discriminator hinner htag hmapping⟩

theorem decodeForm_of_describesForm {form : Form}
    (hdescribes : DescribesForm members form) :
    decodeForm path members form.kind? = .ok form := by
  cases hdescribes with
  | empty => rfl
  | ref hname => exact map_eq_ok_iff.2 ⟨_, stringMember_eq_ok_iff.2 hname, rfl⟩
  | type htype => exact map_eq_ok_iff.2 ⟨_, typeMember_eq_ok_iff.2 htype, rfl⟩
  | enum hitems hnodup hvalues =>
      exact map_eq_ok_iff.2
        ⟨_, enumMember_eq_ok_iff.2 ⟨_, hitems, hnodup, hvalues⟩, rfl⟩
  | elements hvalue hschema =>
      exact map_eq_ok_iff.2
        ⟨_, (decodeMember_eq_ok_iff hlower).2 ⟨_, hvalue, hschema⟩, rfl⟩
  | properties hrequired hoptional hadditional =>
      refine bind_eq_ok_iff.2
        ⟨_, (decodeMapMember_eq_ok_iff hlower).2 hrequired, ?_⟩
      refine bind_eq_ok_iff.2
        ⟨_, (decodeMapMember_eq_ok_iff hlower).2 hoptional, ?_⟩
      exact bind_eq_ok_iff.2 ⟨_, booleanMember_eq_ok_iff.2 hadditional, rfl⟩
  | values hvalue hschema =>
      exact map_eq_ok_iff.2
        ⟨_, (decodeMember_eq_ok_iff hlower).2 ⟨_, hvalue, hschema⟩, rfl⟩
  | discriminator hinner htag hmapping =>
      exact bind_eq_ok_iff.2
        ⟨_, (decodeDiscriminator_eq_ok_iff hlower).2 ⟨_, hinner, htag,
          hmapping⟩, rfl⟩

end

end Schema

open Schema in
/-- Reading yields the one schema that the document describes. -/
theorem readsAsDescribed (value : Json) : ReadsAsDescribed value := by
  induction value using Json.heightInduction with
  | step value ih =>
  intro path s
  cases value with
  | obj members =>
      rw [decode_obj_eq]
      constructor
      · intro hread
        obtain ⟨definitions, hdefinitions, hread⟩ := bind_eq_ok_iff.1 hread
        obtain ⟨kind?, hkind, hread⟩ := bind_eq_ok_iff.1 hread
        obtain ⟨form, hform, hread⟩ := bind_eq_ok_iff.1 hread
        cases hread
        obtain ⟨rfl, hdescribes⟩ := describesForm_of_decodeForm ih hform
        exact .obj ((decodeMapMember_eq_ok_iff ih).1 hdefinitions)
          (FormKind.requested?_eq_ok_iff.1 hkind) hdescribes
      · intro hdescribes
        cases hdescribes with
        | obj hdefinitions hkind hform =>
            refine bind_eq_ok_iff.2
              ⟨_, (decodeMapMember_eq_ok_iff ih).2 hdefinitions, ?_⟩
            refine bind_eq_ok_iff.2 ⟨_, FormKind.requested?_eq_ok_iff.2 hkind,
              ?_⟩
            exact bind_eq_ok_iff.2 ⟨_, decodeForm_of_describesForm ih hform,
              rfl⟩
  | _ =>
      constructor
      · intro hread
        cases hread
      · intro hdescribes
        cases hdescribes

/-- A value is read as a schema exactly if it describes that schema. -/
theorem ofJson?_eq_ok_iff {value : Json} {s : Schema} :
    Schema.ofJson? value = .ok s ↔ Describes value s :=
  readsAsDescribed value [] s

/-- A document describes one schema at most. -/
theorem Describes.unique {value : Json} {s t : Schema} (hs : Describes value s)
    (ht : Describes value t) : s = t := by
  rw [← ofJson?_eq_ok_iff] at hs ht
  exact Except.ok.inj (hs.symm.trans ht)

end SchemaForms
