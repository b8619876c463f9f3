import SchemaForms.Proofs.Description
/-!
The grammar of schema documents.  `SchemaDoc` says which values are schemas, by
the words of the language and without regard to what they describe.  They are
the values that describe a schema (`exists_describes_iff`), and in no value is
the keyword of a form missed (`decode_misses`).
-/

namespace SchemaForms

/-- The groups of keywords that select a form. -/
def keywordGroups : List (List String) :=
  [["ref"], ["type"], ["enum"], ["elements"],
    ["properties", "optionalProperties", "additionalProperties"], ["values"],
    ["discriminator"]]

def typeNames : List String :=
  ["boolean", "float32", "float64", "int8", "uint8", "int16", "uint16", "int32",
    "uint32", "string", "timestamp"]

/-- An object has a member of a group. -/
def HasMemberOf (members : KeyMap Json) (group : List String) : Prop :=
  ∃ key ∈ group, members.contains key = true

mutual

/-- A schema document: an object with members of one group at most, each keyword
with a value of its kind.  Other members may be there. -/
inductive SchemaDoc : Json → Prop where
  | obj {members : KeyMap Json}
      (definitions : ∀ value, members.get? "definitions" = some value →
        SchemaMapDoc value)
      (oneGroup : ∀ group ∈ keywordGroups, ∀ other ∈ keywordGroups,
        HasMemberOf members group → HasMemberOf members other → group = other)
      (ref : ∀ value, members.get? "ref" = some value → ∃ name,
        value = .str name)
      (type : ∀ value, members.get? "type" = some value → ∃ name ∈ typeNames,
        value = .str name)
      (enum : ∀ value, members.get? "enum" = some value →
        ∃ items : List String, items.Nodup ∧ value = .arr (items.map .str))
      (elements : ∀ value, members.get? "elements" = some value →
        SchemaDoc value)
      (properties : ∀ value, members.get? "properties" = some value →
        SchemaMapDoc value)
      (optionalProperties : ∀ value,
        members.get? "optionalProperties" = some value →
        SchemaMapDoc value)
      (additionalProperties : ∀ value,
        members.get? "additionalProperties" = some value →
        ∃ flag, value = .bool flag)
      (values : ∀ value, members.get? "values" = some value → SchemaDoc value)
      (discriminator : ∀ value, members.get? "discriminator" = some value →
        DiscriminatorDoc value) :
      SchemaDoc (.obj members)

inductive SchemaMapDoc : Json → Prop where
  | obj {entries : KeyMap Json}
      (schemas : ∀ key value, entries.get? key = some value → SchemaDoc value) :
      SchemaMapDoc (.obj entries)

/-- An object with a string for a tag and schema documents for a mapping. -/
inductive DiscriminatorDoc : Json → Prop where
  | obj {members : KeyMap Json} {tag : String} {mapping : Json}
      (htag : members.get? "tag" = some (.str tag))
      (hmapping : members.get? "mapping" = some mapping)
      (branches : SchemaMapDoc mapping) :
      DiscriminatorDoc (.obj members)

end

namespace FormKind

variable {members : KeyMap Json}

theorem map_name_keywords_mem (kind : FormKind) :
    kind.keywords.map Keyword.name ∈ keywordGroups := by
  cases kind <;> decide

theorem exists_of_mem_keywordGroups {group : List String}
    (hgroup : group ∈ keywordGroups) :
    ∃ kind : FormKind, kind.keywords.map Keyword.name = group := by
  have hall : keywordGroups = all.map fun kind =>
      kind.keywords.map Keyword.name := rfl
  rw [hall, List.mem_map] at hgroup
  obtain ⟨kind, -, hkind⟩ := hgroup
  exact ⟨kind, hkind⟩

theorem keyword_mem_keywords (kind : FormKind) :
    kind.keyword ∈ kind.keywords := by
  cases kind <;> decide

theorem keywords_injective {kind other : FormKind}
    (hsame : kind.keywords.map Keyword.name = other.keywords.map Keyword.name) :
    kind = other := by
  have hkeywords : kind.keywords = other.keywords :=
    (List.map_inj_right fun _ _ => Keyword.name_injective).1 hsame
  have hmem : kind.keyword ∈ kind.keywords := kind.keyword_mem_keywords
  have hkind := mem_keywords_iff.1 hmem
  rw [hkeywords] at hmem
  exact Option.some.inj (hkind.symm.trans (mem_keywords_iff.1 hmem))

theorem isIn_iff_hasMemberOf {kind : FormKind} :
    kind.IsIn members ↔
      HasMemberOf members (kind.keywords.map Keyword.name) := by
  rw [IsIn, HasMemberOf]
  constructor
  · rintro ⟨keyword, hkeyword, hcontains⟩
    exact ⟨keyword.name, List.mem_map_of_mem hkeyword, hcontains⟩
  · rintro ⟨key, hkey, hcontains⟩
    obtain ⟨keyword, hkeyword, rfl⟩ := List.mem_map.1 hkey
    exact ⟨keyword, hkeyword, hcontains⟩

/-- The members of an object are of one group at most exactly if it asks for one
kind at most. -/
theorem oneGroup_iff_exists_isOnly :
    (∀ group ∈ keywordGroups, ∀ other ∈ keywordGroups,
      HasMemberOf members group → HasMemberOf members other → group = other) ↔
      ∃ kind?, IsOnly members kind? := by
  constructor
  · intro hgroups
    by_cases hnone : ∃ kind : FormKind, kind.IsIn members
    · obtain ⟨kind, hkind⟩ := hnone
      refine ⟨some kind, fun other => ⟨fun hother => ?_, ?_⟩⟩
      · have hsame :=
          hgroups _ kind.map_name_keywords_mem _ other.map_name_keywords_mem
            (isIn_iff_hasMemberOf.1 hkind) (isIn_iff_hasMemberOf.1 hother)
        rw [keywords_injective hsame]
      · intro hother
        cases hother
        exact hkind
    · refine ⟨none, fun kind => ⟨fun hkind => absurd ⟨kind, hkind⟩ hnone, ?_⟩⟩
      intro hkind
      cases hkind
  · rintro ⟨kind?, honly⟩ group hgroup other hother hmember hmember'
    obtain ⟨kind, rfl⟩ := exists_of_mem_keywordGroups hgroup
    obtain ⟨kind', rfl⟩ := exists_of_mem_keywordGroups hother
    have hkind := (honly kind).1 (isIn_iff_hasMemberOf.2 hmember)
    have hkind' := (honly kind').1 (isIn_iff_hasMemberOf.2 hmember')
    rw [Option.some.inj (hkind.symm.trans hkind')]

end FormKind

theorem PrimitiveType.mem_typeNames_iff {name : String} :
    name ∈ typeNames ↔ ∃ type : PrimitiveType, type.name = name := by
  have hall : typeNames = all.map PrimitiveType.name := rfl
  rw [hall, List.mem_map]
  simp [mem_all]

theorem DescribesEntries.exists_describes {lo : Option String}
    {entries : Entries Json lo} {schemas : Entries Schema lo}
    (hdescribes : DescribesEntries entries schemas) {key : String}
    {value : Json} (hvalue : entries.get? key = some value) : ∃ schema,
    Describes value schema := by
  induction entries with
  | nil => cases hvalue
  | cons first above value' rest ih =>
      cases hdescribes with
      | cons hschema hothers =>
          rw [Entries.get?_cons] at hvalue
          split at hvalue
          · cases hvalue
            exact ⟨_, hschema⟩
          · exact ih hothers hvalue

section

variable {value : Json}
  (hlower : ∀ lower : Json, lower.height < value.height →
    ∀ schema, Describes lower schema → SchemaDoc lower)

include hlower

theorem schemaMapDoc_of_describesMap? {schemas : Option (KeyMap Schema)}
    (hdescribes : DescribesMap? (some value) schemas) : SchemaMapDoc value := by
  cases hdescribes with
  | some hentries =>
      refine .obj ?_
      intro key lower hlow
      obtain ⟨schema, hschema⟩ := hentries.exists_describes hlow
      exact hlower lower (Json.height_lt_obj hlow) schema hschema

theorem schemaMapDoc_of_describesMap?_get? {members : KeyMap Json}
    {key : String} {member : Json} {schemas : Option (KeyMap Schema)}
    (hvalue : value = .obj members) (hmember : members.get? key = some member)
    (hdescribes : DescribesMap? (members.get? key) schemas) :
    SchemaMapDoc member := by
  rw [hmember] at hdescribes
  refine schemaMapDoc_of_describesMap? ?_ hdescribes
  intro lower hlt
  subst hvalue
  exact hlower lower (Nat.lt_trans hlt (Json.height_lt_obj hmember))

end

theorem schemaDoc_of_describes (value : Json) :
    ∀ schema, Describes value schema → SchemaDoc value := by
  induction value using Json.heightInduction with
  | step value ih =>
  intro schema hdescribes
  cases hdescribes with
  | @obj members definitions form hdefinitions hkind hform =>
  have hmap : ∀ {key : String} {value : Json} {schemas :
      Option (KeyMap Schema)},
      members.get? key = some value → DescribesMap? (members.get? key) schemas →
        SchemaMapDoc value :=
    fun hvalue hdescribes =>
      schemaMapDoc_of_describesMap?_get? ih rfl hvalue hdescribes
  refine .obj ?definitions (FormKind.oneGroup_iff_exists_isOnly.2 ⟨_, hkind⟩)
    ?ref ?type ?enum
    ?elements ?properties ?optionalProperties ?additionalProperties
      ?values ?discriminator
  case definitions =>
    intro value hvalue
    exact hmap hvalue hdefinitions
  -- A keyword that is there leaves one form only.
  case ref =>
    intro value hvalue
    have hform? := hkind.kind?_eq .ref rfl hvalue
    cases hform with
    | ref hname => exact ⟨_, Option.some.inj (hvalue.symm.trans hname)⟩
    | _ => cases hform?
  case type =>
    intro value hvalue
    have hform? := hkind.kind?_eq .type rfl hvalue
    cases hform with
    | @type _ type htype =>
        refine ⟨type.name, PrimitiveType.mem_typeNames_iff.2 ⟨type, rfl⟩, ?_⟩
        exact Option.some.inj (hvalue.symm.trans htype)
    | _ => cases hform?
  case enum =>
    intro value hvalue
    have hform? := hkind.kind?_eq .enum rfl hvalue
    cases hform with
    | enum hitems hnodup _ =>
        exact ⟨_, hnodup, Option.some.inj (hvalue.symm.trans hitems)⟩
    | _ => cases hform?
  case elements =>
    intro value hvalue
    have hform? := hkind.kind?_eq .elements rfl hvalue
    cases hform with
    | elements hvalue' hschema =>
        cases hvalue.symm.trans hvalue'
        exact ih value (Json.height_lt_obj hvalue) _ hschema
    | _ => cases hform?
  case properties =>
    intro value hvalue
    have hform? := hkind.kind?_eq .properties rfl hvalue
    cases hform with
    | properties hrequired _ _ => exact hmap hvalue hrequired
    | _ => cases hform?
  case optionalProperties =>
    intro value hvalue
    have hform? := hkind.kind?_eq .optionalProperties rfl hvalue
    cases hform with
    | properties _ hoptional _ => exact hmap hvalue hoptional
    | _ => cases hform?
  case additionalProperties =>
    intro value hvalue
    have hform? := hkind.kind?_eq .additionalProperties rfl hvalue
    cases hform with
    | @properties _ _ _ additional _ _ hadditional =>
        have hflag : (some value).getD (.bool false) = .bool additional :=
          hvalue ▸ hadditional
        exact ⟨additional, hflag⟩
    | _ => cases hform?
  case values =>
    intro value hvalue
    have hform? := hkind.kind?_eq .values rfl hvalue
    cases hform with
    | values hvalue' hschema =>
        cases hvalue.symm.trans hvalue'
        exact ih value (Json.height_lt_obj hvalue) _ hschema
    | _ => cases hform?
  case discriminator =>
    intro value hvalue
    have hform? := hkind.kind?_eq .discriminator rfl hvalue
    cases hform with
    | @discriminator _ inner tag mapping hinner htag hmapping =>
        cases hvalue.symm.trans hinner
        have hlower : ∀ lower : Json, lower.height < (Json.obj inner).height →
            ∀ schema, Describes lower schema → SchemaDoc lower :=
          fun lower hlt =>
            ih lower (Nat.lt_trans hlt (Json.height_lt_obj hvalue))
        cases hget : inner.get? Keyword.mapping.name with
        | none =>
            rw [hget] at hmapping
            cases hmapping
        | some value =>
            exact .obj htag hget
              (schemaMapDoc_of_describesMap?_get? hlower rfl hget hmapping)
    | _ => cases hform?

theorem exists_describesEntries {lo : Option String} {entries : Entries Json lo}
    (hvalues : ∀ key value, entries.get? key = some value → ∃ schema,
      Describes value schema) :
    ∃ schemas : Entries Schema lo, DescribesEntries entries schemas := by
  induction entries with
  | nil => exact ⟨.nil, .nil⟩
  | cons key above value rest ih =>
      obtain ⟨schema, hschema⟩ := hvalues key value (by simp)
      obtain ⟨others, hothers⟩ := ih fun key' value' hget =>
        hvalues key' value' (Entries.get?_cons_of_rest hget)
      exact ⟨.cons key above schema others, .cons hschema hothers⟩

section

variable {members : KeyMap Json}
  (hlower : ∀ lower : Json, lower.height < (Json.obj members).height →
    SchemaDoc lower → ∃ schema, Describes lower schema)

include hlower

theorem exists_describesMap? {key : String}
    (hdoc : ∀ value, members.get? key = some value → SchemaMapDoc value) :
    ∃ schemas, DescribesMap? (members.get? key) schemas := by
  cases hget : members.get? key with
  | none => exact ⟨none, .none⟩
  | some value =>
      cases hdoc value hget with
      | @obj entries hentries =>
          obtain ⟨schemas, hschemas⟩ :=
            exists_describesEntries fun key lower hlow =>
              hlower lower (Nat.lt_trans (Json.height_lt_obj hlow)
                (Json.height_lt_obj hget))
                (hentries key lower hlow)
          exact ⟨some schemas, .some hschemas⟩

theorem exists_describesForm (hdoc : SchemaDoc (.obj members))
    {kind? : Option FormKind} (honly : FormKind.IsOnly members kind?) :
    ∃ form : Form, form.kind? = kind? ∧ DescribesForm members form := by
  cases hdoc with
  | obj _ _ ref type enum elements properties optionalProperties
      additionalProperties values discriminator =>
  rcases kind? with _ | kind
  · exact ⟨.empty, rfl, .empty⟩
  · cases kind with
    | ref =>
        obtain ⟨value, hvalue⟩ := honly.exists_get? nofun
        obtain ⟨name, rfl⟩ := ref value hvalue
        exact ⟨.ref name, rfl, .ref hvalue⟩
    | type =>
        obtain ⟨value, hvalue⟩ := honly.exists_get? nofun
        obtain ⟨name, hname, rfl⟩ := type value hvalue
        obtain ⟨type, rfl⟩ := PrimitiveType.mem_typeNames_iff.1 hname
        exact ⟨.type type, rfl, .type hvalue⟩
    | enum =>
        obtain ⟨value, hvalue⟩ := honly.exists_get? nofun
        obtain ⟨items, hnodup, rfl⟩ := enum value hvalue
        exact ⟨.enum (KeySet.ofList items), rfl,
          .enum hvalue hnodup fun _ => KeySet.contains_ofList⟩
    | elements =>
        obtain ⟨value, hvalue⟩ := honly.exists_get? nofun
        obtain ⟨schema, hschema⟩ :=
          hlower value (Json.height_lt_obj hvalue) (elements value hvalue)
        exact ⟨.elements schema, rfl, .elements hvalue hschema⟩
    | properties =>
        obtain ⟨required, hrequired⟩ := exists_describesMap? hlower properties
        obtain ⟨optional, hoptional⟩ :=
          exists_describesMap? hlower optionalProperties
        obtain ⟨additional, hadditional⟩ : ∃ additional,
            (members.get? Keyword.additionalProperties.name).getD
                (.bool false) = .bool additional := by
          cases hget : members.get? Keyword.additionalProperties.name with
          | none => exact ⟨false, rfl⟩
          | some value => exact additionalProperties value hget
        exact ⟨.properties required optional additional, rfl,
          .properties hrequired hoptional hadditional⟩
    | values =>
        obtain ⟨value, hvalue⟩ := honly.exists_get? nofun
        obtain ⟨schema, hschema⟩ :=
          hlower value (Json.height_lt_obj hvalue) (values value hvalue)
        exact ⟨.values schema, rfl, .values hvalue hschema⟩
    | discriminator =>
        obtain ⟨value, hvalue⟩ := honly.exists_get? nofun
        cases discriminator value hvalue with
        | @obj inner tag mapping htag hmapping hbranches =>
            have hinner : ∀ lower : Json,
                lower.height < (Json.obj inner).height →
                SchemaDoc lower → ∃ schema, Describes lower schema :=
              fun lower hlt =>
                hlower lower (Nat.lt_trans hlt (Json.height_lt_obj hvalue))
            have hmap : ∀ value, inner.get? Keyword.mapping.name = some value →
                SchemaMapDoc value := by
              intro value hget
              cases hmapping.symm.trans hget
              exact hbranches
            obtain ⟨schemas, hschemas⟩ := exists_describesMap? hinner hmap
            have hget : inner.get? Keyword.mapping.name = some mapping :=
              hmapping
            cases schemas with
            | some mapping' =>
                exact ⟨.discriminator tag mapping', rfl,
                  .discriminator hvalue htag hschemas⟩
            | none =>
                rw [hget] at hschemas
                cases hschemas

end

theorem exists_describes (value : Json) :
    SchemaDoc value → ∃ schema, Describes value schema := by
  induction value using Json.heightInduction with
  | step value ih =>
  intro hdoc
  have hdoc' := hdoc
  cases hdoc with
  | obj definitions oneGroup =>
      obtain ⟨kind?, honly⟩ := FormKind.oneGroup_iff_exists_isOnly.1 oneGroup
      obtain ⟨schemas, hschemas⟩ := exists_describesMap? ih definitions
      obtain ⟨form, rfl, hform⟩ := exists_describesForm ih hdoc' honly
      exact ⟨⟨schemas, form⟩, .obj hschemas honly hform⟩

/-- The values that describe a schema are the schema documents. -/
theorem exists_describes_iff {value : Json} :
    (∃ schema, Describes value schema) ↔ SchemaDoc value :=
  ⟨fun ⟨schema, hdescribes⟩ => schemaDoc_of_describes value schema hdescribes,
    exists_describes value⟩

/-- A reader that misses a keyword misses the tag or the mapping of a
discriminator. -/
def MissesInDiscriminator {α : Type} (read : Except SchemaError α) : Prop :=
  ∀ path keyword, read = .error ⟨path, .missing keyword⟩ → keyword = .tag ∨
    keyword = .mapping

namespace MissesInDiscriminator

variable {α β : Type} {read : Except SchemaError α}

theorem ok (result : α) : MissesInDiscriminator (.ok result) := by
  rintro _ _ ⟨⟩

theorem bind {next : α → Except SchemaError β}
    (hread : MissesInDiscriminator read)
    (hnext : ∀ result, read = .ok result →
      MissesInDiscriminator (next result)) :
    MissesInDiscriminator (read >>= next) := by
  intro path keyword hfailed
  rcases bind_eq_error_iff.1 hfailed with hread' | ⟨result, hresult, hnext'⟩
  · exact hread path keyword hread'
  · exact hnext result hresult path keyword hnext'

theorem map {f : α → β} (hread : MissesInDiscriminator read) :
    MissesInDiscriminator (f <$> read) := by
  intro path keyword hfailed
  cases read with
  | error e =>
      cases hfailed
      exact hread path keyword rfl
  | ok result => cases hfailed

end MissesInDiscriminator

namespace Schema

variable {keyword : Keyword} {path : SchemaPath}

theorem stringMember_misses {members : KeyMap Json} {value : Json}
    (hvalue : members.get? keyword.name = some value) :
    MissesInDiscriminator (stringMember keyword path members) := by
  rw [stringMember, hvalue]
  cases value <;> rintro _ _ ⟨⟩

theorem booleanMember_misses {members : KeyMap Json} :
    MissesInDiscriminator (booleanMember keyword path members) := by
  rw [booleanMember]
  split <;> rintro _ _ ⟨⟩

theorem typeMember_misses {members : KeyMap Json} {value : Json}
    (hvalue : members.get? Keyword.type.name = some value) :
    MissesInDiscriminator (typeMember path members) := by
  refine (stringMember_misses hvalue).bind ?_
  intro name _
  split <;> rintro _ _ ⟨⟩

theorem enumItems_misses {index : Nat} {seen : KeySet} {items : List Json} :
    MissesInDiscriminator (enumItems path index seen items) := by
  induction items generalizing index seen with
  | nil => exact .ok _
  | cons item rest ih =>
      cases item with
      | str s =>
          rw [enumItems]
          split
          · rintro _ _ ⟨⟩
          · exact ih
      | _ => rintro _ _ ⟨⟩

theorem enumMember_misses {members : KeyMap Json} :
    MissesInDiscriminator (enumMember path members) := by
  rw [enumMember]
  split
  · exact enumItems_misses
  · rintro _ _ ⟨⟩

theorem decodeEntries_misses {lo : Option String} {entries : Entries Json lo}
    (hvalues : ∀ key value, entries.get? key = some value →
      ∀ path, MissesInDiscriminator (decode path value)) :
    MissesInDiscriminator (decodeEntries path entries) := by
  induction entries with
  | nil => exact .ok _
  | cons key above value rest ih =>
      rw [decodeEntries]
      refine (hvalues key value (by simp) _).bind fun schema _ => ?_
      refine (ih fun key' value' hget =>
        hvalues key' value' (Entries.get?_cons_of_rest hget)).bind ?_
      intro others _
      exact .ok _

section

variable {members : KeyMap Json}
  (hlower : ∀ lower : Json, lower.height < (Json.obj members).height →
    ∀ path, MissesInDiscriminator (decode path lower))

include hlower

theorem decodeMember_misses {value : Json}
    (hvalue : members.get? keyword.name = some value) :
    MissesInDiscriminator (decodeMember keyword path members) := by
  rw [decodeMember_eq, hvalue]
  exact hlower value (Json.height_lt_obj hvalue) path

theorem decodeMapMember_misses :
    MissesInDiscriminator (decodeMapMember keyword path members) := by
  rw [decodeMapMember_eq]
  split
  · rename_i entries hentries
    refine (decodeEntries_misses fun key value hvalue => ?_).map
    exact hlower value
      (Nat.lt_trans (Json.height_lt_obj hvalue) (Json.height_lt_obj hentries))
  · rintro _ _ ⟨⟩
  · rintro _ _ ⟨⟩

theorem decodeTagged_misses :
    MissesInDiscriminator (decodeTagged path members) := by
  refine .bind ?_ fun tag _ =>
    (decodeMapMember_misses hlower).bind fun mapping? _ => ?_
  · cases htag : members.get? Keyword.tag.name with
    | none =>
        rw [stringMember, htag]
        rintro _ _ ⟨⟩
        exact .inl rfl
    | some value => exact stringMember_misses htag
  · cases mapping? with
    | none =>
        rintro _ _ ⟨⟩
        exact .inr rfl
    | some mapping => exact .ok _

theorem decodeDiscriminator_misses {value : Json}
    (hvalue : members.get? Keyword.discriminator.name = some value) :
    MissesInDiscriminator (decodeDiscriminator path members) := by
  rw [decodeDiscriminator_eq, hvalue]
  cases value with
  | obj inner =>
      exact decodeTagged_misses fun lower hlt =>
        hlower lower (Nat.lt_trans hlt (Json.height_lt_obj hvalue))
  | _ => rintro _ _ ⟨⟩

/-- The reader of a form that is asked for finds the keyword of the form. -/
theorem decodeForm_misses {kind? : Option FormKind}
    (honly : FormKind.IsOnly members kind?) :
    MissesInDiscriminator (decodeForm path members kind?) := by
  rcases kind? with _ | kind
  · exact .ok _
  · cases kind with
    | ref =>
        exact (stringMember_misses (honly.exists_get? nofun).choose_spec).map
    | type =>
        exact (typeMember_misses (honly.exists_get? nofun).choose_spec).map
    | enum => exact enumMember_misses.map
    | elements =>
        exact (decodeMember_misses hlower
          (honly.exists_get? nofun).choose_spec).map
    | properties =>
        refine (decodeMapMember_misses hlower).bind fun required _ => ?_
        refine (decodeMapMember_misses hlower).bind fun optional _ => ?_
        exact booleanMember_misses.bind fun additional _ => .ok _
    | values =>
        exact (decodeMember_misses hlower
          (honly.exists_get? nofun).choose_spec).map
    | discriminator =>
        refine (decodeDiscriminator_misses hlower
          (honly.exists_get? nofun).choose_spec).bind ?_
        intro tagged _
        exact .ok _

end

theorem decode_misses (value : Json) : ∀ path,
    MissesInDiscriminator (decode path value) := by
  induction value using Json.heightInduction with
  | step value ih =>
  intro path
  cases value with
  | obj members =>
      rw [decode_obj_eq]
      refine (decodeMapMember_misses ih).bind fun definitions _ => ?_
      refine .bind ?_ fun kind? hkind => ?_
      · rw [FormKind.requested?]
        split <;> rintro _ _ ⟨⟩
      · refine (decodeForm_misses ih
          (FormKind.requested?_eq_ok_iff.1 hkind)).bind ?_
        intro form _
        exact .ok _
  | _ => rintro _ _ ⟨⟩

end Schema

/-- Reading accepts the schema documents and refuses every other value as an
invalid schema.  A form that was found has its keyword, so what can be missing
in a value is the inside of a discriminator only. -/
theorem reading_accepts_schemaDocs (value : Json) :
    ((∃ schema, Schema.ofJson? value = .ok schema) ↔ SchemaDoc value) ∧
    ((∃ e, Schema.ofJson? value = .error e ∧ e.message = "invalid schema: " ++
      e.reason) ↔
      ¬ SchemaDoc value) ∧
    (∀ path members kind, FormKind.requested? path members = .ok (some kind) →
      kind ≠ .properties → ∃ member,
      members.get? kind.keyword.name = some member) ∧
    ∀ path keyword, Schema.ofJson? value = .error ⟨path, .missing keyword⟩ →
      keyword = .tag ∨ keyword = .mapping := by
  have haccepts : (∃ schema, Schema.ofJson? value = .ok schema) ↔
      SchemaDoc value := by
    simp only [ofJson?_eq_ok_iff]
    exact exists_describes_iff
  refine ⟨haccepts, ?_, ?_, Schema.decode_misses value []⟩
  · rw [← haccepts]
    cases hread : Schema.ofJson? value with
    | ok schema => simp
    | error e =>
        have hmessage : e.message = "invalid schema: " ++ e.reason := rfl
        simp [hmessage]
  · intro path members kind hrequested hkind
    exact (FormKind.requested?_eq_ok_iff.1 hrequested).exists_get? hkind

/-- A document for circles and for labelled points, with a color for each. -/
def shapeDocument : Json :=
  .object [
    ("title", .str "shapes"),
    ("definitions", .object [
      ("color", .object [("enum", .arr [.str "red", .str "blue"]),
        ("nullable", .null)])]),
    ("discriminator", .object [
      ("tag", .str "shape"), ("hint", .num (.int 1)),
      ("mapping", .object [
        ("circle", .object [
          ("properties", .object [
            ("radius", .object [("type", .str "float64")]),
            ("color", .object [("ref", .str "color")])]),
          ("additionalProperties", .bool false)]),
        ("point", .object [
          ("optionalProperties", .object [
            ("labels", .object
              [("elements", .object [("type", .str "string")])])]),
          ("additionalProperties", .bool true)])])])]

theorem reading_accepts_schemaDocs_shapes :
    SchemaDoc shapeDocument ∧
      ¬ SchemaDoc (.object [("values", shapeDocument),
        ("elements", shapeDocument)]) ∧
      (∃ member, (KeyMap.ofList [("values", shapeDocument)]).get? "values" =
        some member) ∧
      Schema.ofJson?
          (.object [("discriminator", .object [("tag", .str "shape")])]) =
        .error ⟨["discriminator"], .missing .mapping⟩ ∧
      (Keyword.mapping = .tag ∨ Keyword.mapping = .mapping) := by
  have hshapes : ∃ schema, Schema.ofJson? shapeDocument = .ok schema := ⟨_, rfl⟩
  have hmissing : Schema.ofJson?
        (.object [("discriminator", .object [("tag", .str "shape")])]) =
      .error ⟨["discriminator"], .missing .mapping⟩ := rfl
  obtain ⟨haccepts, -, hfound, -⟩ := reading_accepts_schemaDocs shapeDocument
  refine ⟨haccepts.1 hshapes, ?_, ?_, hmissing, ?_⟩
  · exact (reading_accepts_schemaDocs _).2.1.1 ⟨_, rfl, rfl⟩
  · exact hfound [] _ .values rfl nofun
  · exact (reading_accepts_schemaDocs _).2.2.2 _ _ hmissing

end SchemaForms
