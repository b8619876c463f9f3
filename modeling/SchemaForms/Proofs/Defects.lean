import SchemaForms.Proofs.Breaches
import SchemaForms.Proofs.Grammar
/-!
All defects of a document, in the order in which one reads it.  Reading stops at
a defect and says what it is and where; it is the first of all
(`reading_names_first_defect`).
-/

namespace SchemaForms

/-- The keywords that select a form, in the order in which a conflict names
them. -/
def formKeywords : List Keyword :=
  [.ref, .type, .enum, .elements, .properties, .optionalProperties,
    .additionalProperties, .values, .discriminator]

/-- The first two keywords of some that are of different groups. -/
def firstConflict? : List Keyword → Option (Keyword × Keyword)
  | [] => none
  | first :: rest =>
      (rest.find? fun second => second.kind? ≠ first.kind?).map fun second =>
        (first, second)

/-- The first two keywords of an object that cannot stand together. -/
def conflict? (members : KeyMap Json) : Option (Keyword × Keyword) :=
  firstConflict? (formKeywords.filter fun keyword =>
    members.contains keyword.name)

def Json.string? : Json → Option String
  | .str s => some s
  | _ => none

namespace Schema

def itemDefects (place : SchemaPath) (earlier : List Json) :
    Json → List SchemaError
  | .str s =>
      if s ∈ earlier.filterMap Json.string? then [⟨place, .enumItemRepeated s⟩]
      else []
  | other => [⟨place, .enumItemNotString other.kind⟩]

/-- The defects of a value that is not read as a schema, at the keyword that it
belongs to. -/
def plainDefects (path : SchemaPath) : Keyword → Json → List SchemaError
  | .ref, .str _ => []
  | .ref, other => [⟨path, .notString .ref other.kind⟩]
  | .type, .str name =>
      if name ∈ typeNames then [] else [⟨path, .unknownType name⟩]
  | .type, other => [⟨path, .notString .type other.kind⟩]
  | .enum, .arr items =>
      items.zipIdx.flatMap fun (item, index) =>
        itemDefects (path.under .enum ++ [Digits.text index])
          (items.take index) item
  | .enum, _ => [⟨path, .enumNotArray⟩]
  | .additionalProperties, .bool _ => []
  | .additionalProperties, other =>
      [⟨path, .notBoolean .additionalProperties other.kind⟩]
  | .tag, .str _ => []
  | .tag, other => [⟨path, .notString .tag other.kind⟩]
  | _, _ => []

/-- The defects of the value of a keyword.  There are none if the keyword is
missing. -/
def memberDefects (keyword : Keyword) (path : SchemaPath)
    (members : KeyMap Json) : List SchemaError :=
  match members.get? keyword.name with
  | some value => plainDefects path keyword value
  | none => []

/-- A keyword that must be there. -/
def missingDefects (keyword : Keyword) (path : SchemaPath)
    (members : KeyMap Json) : List SchemaError :=
  if members.contains keyword.name then [] else [⟨path, .missing keyword⟩]

mutual

/-- All defects of a value that stands for a schema: those of its definitions,
then a conflict of its keywords, or else those of its form. -/
def defects (path : SchemaPath) : Json → List SchemaError
  | .obj members =>
      mapDefects .definitions path members ++
        match conflict? members with
        | some (first, second) => [⟨path, .formsCombined first second⟩]
        | none =>
            formKeywords.flatMap fun keyword =>
              match keyword with
              | .elements | .values => schemaDefects keyword path members
              | .properties | .optionalProperties =>
                  mapDefects keyword path members
              | .discriminator => discriminatorDefects path members
              | _ => memberDefects keyword path members
  | other => [⟨path, .schemaNotObject other.kind⟩]

def schemaDefects (keyword : Keyword) (path : SchemaPath) {lo : Option String} :
    Entries Json lo → List SchemaError
  | .nil => []
  | .cons key _ value rest =>
      if keyword.name = key then defects (path.under keyword) value
      else schemaDefects keyword path rest

def mapDefects (keyword : Keyword) (path : SchemaPath) {lo : Option String} :
    Entries Json lo → List SchemaError
  | .nil => []
  | .cons key _ value rest =>
      if keyword.name = key then
        match value with
        | .obj entries => entriesDefects (path.under keyword) entries
        | other => [⟨path.under keyword, .notObject keyword other.kind⟩]
      else mapDefects keyword path rest

/-- The defects of a discriminator: those of the tag come before those of the
mapping. -/
def discriminatorDefects (path : SchemaPath) {lo : Option String} :
    Entries Json lo → List SchemaError
  | .nil => []
  | .cons key _ value rest =>
      if Keyword.discriminator.name = key then
        match value with
        | .obj members =>
            missingDefects .tag (path.under .discriminator) members ++
            memberDefects .tag (path.under .discriminator) members ++
            missingDefects .mapping (path.under .discriminator) members ++
            mapDefects .mapping (path.under .discriminator) members
        | other =>
            [⟨path.under .discriminator, .notObject .discriminator other.kind⟩]
      else discriminatorDefects path rest

/-- The defects of all schemas of a map, in key order. -/
def entriesDefects (path : SchemaPath) {lo : Option String} : Entries Json lo →
    List SchemaError
  | .nil => []
  | .cons name _ value rest =>
      defects (path ++ [name]) value ++ entriesDefects path rest

end

end Schema

/-- A reader fails with the first of some defects, if there is any. -/
inductive FailsFirst {α : Type} : Except SchemaError α → List SchemaError → Prop
  | ok (result : α) : FailsFirst (.ok result) []
  | error (e : SchemaError) (later : List SchemaError) :
      FailsFirst (.error e) (e :: later)

namespace FailsFirst

variable {α β : Type} {read : Except SchemaError α}
  {found later : List SchemaError}

theorem bind {next : α → Except SchemaError β} (hread : FailsFirst read found)
    (hnext : ∀ result, read = .ok result → FailsFirst (next result) later) :
    FailsFirst (read >>= next) (found ++ later) := by
  cases hread with
  | ok result => exact hnext result rfl
  | error e others => exact .error e (others ++ later)

theorem map {f : α → β} (hread : FailsFirst read found) :
    FailsFirst (f <$> read) found := by
  cases hread with
  | ok result => exact .ok (f result)
  | error e others => exact .error e others

theorem eq_error_iff {e : SchemaError} (hread : FailsFirst read found) :
    read = .error e ↔ found.head? = some e := by
  cases hread with
  | ok result => simp
  | error e' others => simp

theorem exists_ok_iff (hread : FailsFirst read found) :
    (∃ result, read = .ok result) ↔ found = [] := by
  cases hread with
  | ok result => simp
  | error e others => simp

end FailsFirst

namespace FormKind

variable {members : KeyMap Json} {path : SchemaPath}

theorem flatMap_keywords_all : all.flatMap keywords = formKeywords := rfl

theorem find?_eq_head? {α : Type} {p : α → Bool} {items : List α}
    (hall : ∀ item ∈ items, p item = true) : items.find? p = items.head? := by
  cases items with
  | nil => rfl
  | cons first rest =>
      exact List.find?_cons_of_pos (hall first List.mem_cons_self)

/-- The keywords of some kinds come one kind behind the other, so the first one
of another kind is the first one of the next kind that has any. -/
theorem firstConflict?_flatMap {kinds : List FormKind} (hnodup : kinds.Nodup)
    {keywords : FormKind → List Keyword}
    (hkeywords : ∀ kind, ∀ keyword ∈ keywords kind, keyword.kind? = some kind) :
    firstConflict? (kinds.flatMap keywords) =
      match kinds.filterMap fun kind => (keywords kind).head? with
      | first :: second :: _ => some (first, second)
      | _ => none := by
  induction kinds with
  | nil => rfl
  | cons kind kinds ih =>
      rw [List.nodup_cons] at hnodup
      rw [List.flatMap_cons, List.filterMap_cons]
      cases hkind : keywords kind with
      | nil => exact ih hnodup.2
      | cons first others =>
          have hfirst : first.kind? = some kind :=
            hkeywords kind first (by simp [hkind])
          have hothers :
              others.find? (fun second => second.kind? ≠ first.kind?) =
                none := by
              rw [List.find?_eq_none]
              intro other hother
              have hsame : other.kind? = some kind :=
                hkeywords kind other (by simp [hkind, hother])
              simp [hsame, hfirst]
          have hlater :
              (kinds.flatMap keywords).find?
                  (fun second => second.kind? ≠ first.kind?) =
                (kinds.filterMap fun kind => (keywords kind).head?).head? := by
              rw [find?_eq_head?, List.head?_flatMap, List.head?_filterMap]
              intro second hsecond
              obtain ⟨other, hother, hmem⟩ := List.mem_flatMap.mp hsecond
              rw [hkeywords other second hmem, hfirst, decide_eq_true_eq]
              rintro ⟨⟩
              exact hnodup.1 hother
          rw [List.cons_append, firstConflict?, List.find?_append, hothers,
            Option.none_or, hlater]
          cases kinds.filterMap fun kind => (keywords kind).head? <;> rfl

/-- The conflict of an object is between the first two kinds that it has
keywords of. -/
theorem conflict?_eq :
    conflict? members =
      match present members with
      | (_, first) :: (_, second) :: _ => some (first, second)
      | _ => none := by
  have hkeywords : ∀ kind : FormKind,
      ∀ keyword ∈ kind.keywords.filter fun keyword =>
        members.contains keyword.name,
          keyword.kind? = some kind := by
    intro kind keyword hkeyword
    exact mem_keywords_iff.mp (List.mem_filter.mp hkeyword).1
  have hpresent : (present members).map Prod.snd =
      all.filterMap fun kind =>
        (kind.keywords.filter fun keyword =>
          members.contains keyword.name).head? := by
    rw [present, List.map_filterMap]
    congr 1
    funext kind
    rw [present?, List.head?_filter, Option.map_map]
    exact Option.map_id'
  rw [conflict?, ← flatMap_keywords_all, List.filter_flatMap,
    firstConflict?_flatMap (by decide) hkeywords, ← hpresent]
  cases present members with
  | nil => rfl
  | cons first rest => cases rest <;> rfl

/-- The kind that is asked for is refused exactly for a conflict. -/
theorem requested?_failsFirst (path : SchemaPath) (members : KeyMap Json) :
    FailsFirst (requested? path members)
      (match conflict? members with
      | some (first, second) => [⟨path, .formsCombined first second⟩]
      | none => []) := by
  rw [conflict?_eq, requested?]
  cases present members with
  | nil => exact .ok _
  | cons first rest =>
      cases rest with
      | nil => exact .ok _
      | cons second others => exact .error _ _

end FormKind

namespace Schema

variable {keyword : Keyword} {path : SchemaPath} {members : KeyMap Json}
  {value : Json}

theorem refMember_failsFirst
    (hvalue : members.get? Keyword.ref.name = some value) :
    FailsFirst (stringMember .ref path members)
      (memberDefects .ref path members) := by
  rw [stringMember, memberDefects, hvalue]
  cases value with
  | str s => exact .ok s
  | _ => exact .error _ []

theorem typeMember_failsFirst
    (hvalue : members.get? Keyword.type.name = some value) :
    FailsFirst (typeMember path members)
      (memberDefects .type path members) := by
  rw [memberDefects, hvalue]
  cases value with
  | str name =>
      change FailsFirst _ (if name ∈ typeNames then []
        else [⟨path, .unknownType name⟩])
      by_cases hname : name ∈ typeNames
      · obtain ⟨type, rfl⟩ := PrimitiveType.mem_typeNames_iff.mp hname
        rw [if_pos hname, typeMember_eq_ok_iff.mpr hvalue]
        exact .ok type
      · have hunknown : PrimitiveType.ofName? name = none := by
          rw [Option.eq_none_iff_forall_ne_some]
          intro type htype
          exact hname (PrimitiveType.mem_typeNames_iff.mpr
            ⟨type, PrimitiveType.name_of_ofName? htype⟩)
        have hread : typeMember path members =
            .error ⟨path, .unknownType name⟩ := by
          rw [typeMember, stringMember, hvalue]
          dsimp only [bind, Except.bind]
          rw [hunknown]
          rfl
        rw [if_neg hname, hread]
        exact .error _ []
  | _ =>
      rw [typeMember, stringMember, hvalue]
      exact .error _ []

/-- Behind the items that were read, each item is compared with all items before
it. -/
theorem enumItems_failsFirst {seen : KeySet} (earlier : List Json)
    {items : List Json}
    (hseen : ∀ s, seen.contains s = true ↔ s ∈ earlier.filterMap Json.string?) :
    FailsFirst (enumItems path earlier.length seen items)
      ((items.zipIdx earlier.length).flatMap fun (item, index) =>
        itemDefects (path.under .enum ++ [Digits.text index])
          ((earlier ++ items).take index) item) := by
  induction items generalizing earlier seen with
  | nil => exact .ok seen
  | cons item rest ih =>
      have htake : (earlier ++ item :: rest).take earlier.length = earlier :=
        List.take_left
      rw [List.zipIdx_cons, List.flatMap_cons]
      dsimp only
      rw [htake]
      cases item with
      | str s =>
          rw [enumItems, itemDefects]
          by_cases hs : seen.contains s = true
          · rw [if_pos hs, if_pos ((hseen s).mp hs)]
            exact .error _ _
          · have hseen' : ∀ t, (KeySet.insert seen s).contains t = true ↔
                t ∈ (earlier ++ [Json.str s]).filterMap Json.string? := by
              intro t
              rw [KeySet.contains_insert, hseen, List.filterMap_append,
                List.mem_append, or_comm]
              exact or_congr_right List.mem_singleton.symm
            have hrest := ih _ hseen'
            rw [List.length_append, List.length_singleton, List.append_assoc,
              List.singleton_append] at hrest
            rw [if_neg hs, if_neg (mt (hseen s).mpr hs), List.nil_append]
            exact hrest
      | _ => exact .error _ _

theorem enumMember_failsFirst
    (hvalue : members.get? Keyword.enum.name = some value) :
    FailsFirst (enumMember path members)
      (memberDefects .enum path members) := by
  rw [enumMember, memberDefects, hvalue]
  cases value with
  | arr items => exact enumItems_failsFirst [] (by simp [Entries.contains])
  | _ => exact .error _ []

theorem booleanMember_failsFirst :
    FailsFirst (booleanMember .additionalProperties path members)
      (memberDefects .additionalProperties path members) := by
  rw [booleanMember, memberDefects]
  cases members.get? Keyword.additionalProperties.name with
  | none => exact .ok false
  | some value =>
      cases value with
      | bool b => exact .ok b
      | _ => exact .error _ []

theorem tagMember_failsFirst :
    FailsFirst (stringMember .tag path members)
      (missingDefects .tag path members ++
        memberDefects .tag path members) := by
  rw [stringMember, missingDefects, memberDefects, Entries.contains]
  cases members.get? Keyword.tag.name with
  | none => exact .error _ []
  | some value =>
      cases value with
      | str s => exact .ok s
      | _ => exact .error _ []

variable {lo : Option String}

theorem schemaDefects_eq {members : Entries Json lo} :
    schemaDefects keyword path members =
      match members.get? keyword.name with
      | some value => defects (path.under keyword) value
      | none => [] := by
  induction members with
  | nil => rfl
  | cons key above value rest ih =>
      rw [schemaDefects, Entries.get?_cons]
      split
      · rfl
      · exact ih

theorem mapDefects_eq {members : Entries Json lo} :
    mapDefects keyword path members =
      match members.get? keyword.name with
      | some (.obj entries) => entriesDefects (path.under keyword) entries
      | some other => [⟨path.under keyword, .notObject keyword other.kind⟩]
      | none => [] := by
  induction members with
  | nil => rfl
  | cons key above value rest ih =>
      rw [mapDefects.eq_def, Entries.get?_cons]
      dsimp only
      split
      · cases value <;> rfl
      · exact ih

def taggedDefects (path : SchemaPath) (members : KeyMap Json) :
    List SchemaError :=
  missingDefects .tag path members ++ memberDefects .tag path members ++
    missingDefects .mapping path members ++ mapDefects .mapping path members

theorem discriminatorDefects_eq {members : Entries Json lo} :
    discriminatorDefects path members =
      match members.get? Keyword.discriminator.name with
      | some (.obj inner) => taggedDefects (path.under .discriminator) inner
      | some other =>
          [⟨path.under .discriminator, .notObject .discriminator other.kind⟩]
      | none => [] := by
  induction members with
  | nil => rfl
  | cons key above value rest ih =>
      rw [discriminatorDefects.eq_def, Entries.get?_cons]
      dsimp only
      split
      · cases value <;> rfl
      · exact ih

def keywordDefects (path : SchemaPath) (members : KeyMap Json) :
    Keyword → List SchemaError
  | .elements => schemaDefects .elements path members
  | .values => schemaDefects .values path members
  | .properties => mapDefects .properties path members
  | .optionalProperties => mapDefects .optionalProperties path members
  | .discriminator => discriminatorDefects path members
  | keyword => memberDefects keyword path members

theorem defects_obj : defects path (.obj members) =
    mapDefects .definitions path members ++
      match conflict? members with
      | some (first, second) => [⟨path, .formsCombined first second⟩]
      | none => formKeywords.flatMap (keywordDefects path members) := by
  rw [defects]
  rfl

theorem keywordDefects_eq_nil (hnone : members.get? keyword.name = none) :
    keywordDefects path members keyword = [] := by
  cases keyword with
  | elements | values =>
      rw [keywordDefects, schemaDefects_eq, hnone]
  | properties | optionalProperties =>
      rw [keywordDefects, mapDefects_eq, hnone]
  | discriminator =>
      rw [keywordDefects, discriminatorDefects_eq, hnone]
  | _ =>
      change memberDefects _ path members = []
      rw [memberDefects, hnone]

theorem flatMap_filter_of_nil {α β : Type} {p : α → Bool} {f : α → List β}
    {items : List α} (hnil : ∀ item ∈ items, ¬ p item = true → f item = []) :
    (items.filter p).flatMap f = items.flatMap f := by
  induction items with
  | nil => rfl
  | cons item rest ih =>
      have hrest := ih fun other hother =>
        hnil other (List.mem_cons_of_mem item hother)
      by_cases hitem : p item = true
      · rw [List.filter_cons_of_pos hitem, List.flatMap_cons,
          List.flatMap_cons, hrest]
      · rw [List.filter_cons_of_neg hitem, List.flatMap_cons, hrest,
          hnil item List.mem_cons_self hitem, List.nil_append]

/-- An object with keywords of one kind has the defects of these keywords. -/
theorem flatMap_keywordDefects {kind? : Option FormKind}
    (honly : FormKind.IsOnly members kind?) :
    formKeywords.flatMap (keywordDefects path members) =
      (formKeywords.filter fun keyword => keyword.kind? = kind?).flatMap
        (keywordDefects path members) := by
  have hkinds : ∀ keyword ∈ formKeywords, ∃ kind,
      keyword.kind? = some kind := by
    intro keyword hkeyword
    rw [← FormKind.flatMap_keywords_all, List.mem_flatMap] at hkeyword
    obtain ⟨kind, -, hmem⟩ := hkeyword
    exact ⟨kind, FormKind.mem_keywords_iff.mp hmem⟩
  refine (flatMap_filter_of_nil ?_).symm
  intro keyword hkeyword hother
  refine keywordDefects_eq_nil ?_
  obtain ⟨kind, hkind⟩ := hkinds keyword hkeyword
  cases hget : members.get? keyword.name with
  | none => rfl
  | some value =>
      have hsame := honly.kind?_eq keyword hkind hget
      exact absurd (decide_eq_true (hkind.trans hsame.symm)) hother

-- Each of these readers fails with the first defect if the reader of the values
-- below does, which the induction on the height of the document supplies.

theorem decodeEntries_failsFirst {entries : Entries Json lo}
    (hvalues : ∀ key value, entries.get? key = some value →
      ∀ path, FailsFirst (decode path value) (defects path value)) :
    FailsFirst (decodeEntries path entries) (entriesDefects path entries) := by
  induction entries with
  | nil => exact .ok _
  | cons key above value rest ih =>
      have hrest := ih fun key' value' hget =>
        hvalues key' value' (Entries.get?_cons_of_rest hget)
      rw [decodeEntries, entriesDefects]
      refine (hvalues key value (by simp) _).bind fun schema _ => ?_
      exact hrest.map

section

variable (hlower : ∀ lower : Json, lower.height < (Json.obj members).height →
    ∀ path, FailsFirst (decode path lower) (defects path lower))

include hlower

theorem decodeMember_failsFirst
    (hvalue : members.get? keyword.name = some value) :
    FailsFirst (decodeMember keyword (path.under keyword) members)
      (schemaDefects keyword path members) := by
  rw [decodeMember_eq, schemaDefects_eq, hvalue]
  exact hlower value (Json.height_lt_obj hvalue) _

theorem decodeMapMember_failsFirst (keyword : Keyword) (path : SchemaPath) :
    FailsFirst (decodeMapMember keyword (path.under keyword) members)
      (mapDefects keyword path members) := by
  rw [decodeMapMember_eq, mapDefects_eq]
  cases hget : members.get? keyword.name with
  | none => exact .ok none
  | some value =>
      cases value with
      | obj entries =>
          refine (decodeEntries_failsFirst fun key lower hlow => ?_).map
          exact hlower lower
            (Nat.lt_trans (Json.height_lt_obj hlow) (Json.height_lt_obj hget))
      | _ => exact .error _ []

omit hlower in
theorem not_contains_of_decodeMapMember
    (hread : decodeMapMember keyword path members = .ok none) :
    ¬ members.contains keyword.name = true := by
  rw [decodeMapMember_eq] at hread
  rw [Entries.contains]
  cases hget : members.get? keyword.name with
  | none => exact Bool.false_ne_true
  | some value =>
      rw [hget] at hread
      cases value with
      | obj entries =>
          obtain ⟨schemas, -, hnone⟩ := map_eq_ok_iff.mp hread
          cases hnone
      | _ => cases hread

theorem decodeTagged_failsFirst :
    FailsFirst (decodeTagged path members) (taggedDefects path members) := by
  have hmap := decodeMapMember_failsFirst hlower .mapping path
  rw [decodeTagged, taggedDefects, List.append_assoc]
  refine tagMember_failsFirst.bind fun tag _ => ?_
  by_cases hmapping : members.contains Keyword.mapping.name = true
  · rw [missingDefects, if_pos hmapping, List.nil_append,
      ← List.append_nil (mapDefects _ _ _)]
    refine hmap.bind fun mapping? hread => ?_
    cases mapping? with
    | some mapping => exact .ok _
    | none => exact absurd hmapping (not_contains_of_decodeMapMember hread)
  · have hnone : members.get? Keyword.mapping.name = none := by
      simpa [Entries.contains] using hmapping
    rw [missingDefects, if_neg hmapping, decodeMapMember_eq, hnone]
    exact .error _ _

theorem decodeDiscriminator_failsFirst
    (hvalue : members.get? Keyword.discriminator.name = some value) :
    FailsFirst (decodeDiscriminator (path.under .discriminator) members)
      (discriminatorDefects path members) := by
  rw [decodeDiscriminator_eq, discriminatorDefects_eq, hvalue]
  cases value with
  | obj inner =>
      exact decodeTagged_failsFirst fun lower hlt =>
        hlower lower (Nat.lt_trans hlt (Json.height_lt_obj hvalue))
  | _ => exact .error _ []

theorem decodeForm_failsFirst (path : SchemaPath) {kind? : Option FormKind}
    (honly : FormKind.IsOnly members kind?) :
    FailsFirst (decodeForm path members kind?)
      (formKeywords.flatMap (keywordDefects path members)) := by
  rw [flatMap_keywordDefects honly]
  cases kind? with
  | none => exact .ok _
  | some kind =>
      have hkeywords :
          (formKeywords.filter fun keyword => keyword.kind? = some kind) =
            kind.keywords := by
        cases kind <;> rfl
      rw [hkeywords]
      cases kind with
      | ref =>
          obtain ⟨value, hvalue⟩ := honly.exists_get? nofun
          rw [FormKind.keywords, List.flatMap_singleton]
          exact (refMember_failsFirst hvalue).map
      | type =>
          obtain ⟨value, hvalue⟩ := honly.exists_get? nofun
          rw [FormKind.keywords, List.flatMap_singleton]
          exact (typeMember_failsFirst hvalue).map
      | enum =>
          obtain ⟨value, hvalue⟩ := honly.exists_get? nofun
          rw [FormKind.keywords, List.flatMap_singleton]
          exact (enumMember_failsFirst hvalue).map
      | elements =>
          obtain ⟨value, hvalue⟩ := honly.exists_get? nofun
          rw [FormKind.keywords, List.flatMap_singleton]
          exact (decodeMember_failsFirst hlower hvalue).map
      | properties =>
          refine (decodeMapMember_failsFirst hlower .properties path).bind
            fun required _ => ?_
          refine (decodeMapMember_failsFirst hlower
            .optionalProperties path).bind fun optional _ => ?_
          exact booleanMember_failsFirst.bind fun additional _ => .ok _
      | values =>
          obtain ⟨value, hvalue⟩ := honly.exists_get? nofun
          rw [FormKind.keywords, List.flatMap_singleton]
          exact (decodeMember_failsFirst hlower hvalue).map
      | discriminator =>
          obtain ⟨value, hvalue⟩ := honly.exists_get? nofun
          exact (decodeDiscriminator_failsFirst hlower hvalue).bind
            fun tagged _ => .ok _

end

/-- Reading a value at a place fails with the first of its defects. -/
theorem decode_failsFirst (value : Json) :
    ∀ path, FailsFirst (decode path value) (defects path value) := by
  induction value using Json.heightInduction with
  | step value ih =>
  intro path
  cases value with
  | obj members =>
      rw [decode_obj_eq, defects_obj]
      refine (decodeMapMember_failsFirst ih .definitions path).bind
        fun definitions _ => ?_
      have hrequested := FormKind.requested?_failsFirst path members
      cases hconflict : conflict? members with
      | some conflict =>
          rw [hconflict] at hrequested
          cases hrequested' : FormKind.requested? path members with
          | ok kind? =>
              rw [hrequested'] at hrequested
              cases hrequested
          | error e =>
              rw [hrequested'] at hrequested
              cases hrequested
              exact .error _ []
      | none =>
          rw [hconflict] at hrequested
          refine hrequested.bind fun kind? hkind => ?_
          have hform :=
            decodeForm_failsFirst ih path
              (FormKind.requested?_eq_ok_iff.mp hkind)
          exact hform.map
  | _ => exact .error _ []

end Schema

/-- What is told of a defect: a sentence, in which the kind of a value that
stands in the wrong place and the keywords at fault are named. -/
inductive SchemaDefect.IsTold : SchemaDefect → String → Prop where
  | schemaNotObject (found : Json.Kind) :
      IsTold (.schemaNotObject found)
        ("schema must be an object, found " ++ found.name)
  | notObject (keyword : Keyword) (found : Json.Kind) :
      IsTold (.notObject keyword found)
        (keyword.name ++ " must be an object, found " ++ found.name)
  | notString (keyword : Keyword) (found : Json.Kind) :
      IsTold (.notString keyword found)
        (keyword.name ++ " must be a string, found " ++ found.name)
  | notBoolean (keyword : Keyword) (found : Json.Kind) :
      IsTold (.notBoolean keyword found)
        (keyword.name ++ " must be a boolean, found " ++ found.name)
  | enumNotArray : IsTold .enumNotArray "enum must be an array of strings"
  | enumItemNotString (found : Json.Kind) :
      IsTold (.enumItemNotString found)
        ("enum values must be strings, found " ++ found.name)
  | enumItemRepeated (item : String) :
      IsTold (.enumItemRepeated item) ("duplicate enum value '" ++ item ++ "'")
  | unknownType (name : String) :
      IsTold (.unknownType name) ("unknown type '" ++ name ++ "'")
  | formsCombined (first second : Keyword) :
      IsTold (.formsCombined first second)
        ("invalid form: '" ++ first.name ++ "' and '" ++ second.name ++
          "' cannot be combined")
  | missing (keyword : Keyword) :
      IsTold (.missing keyword)
        ("discriminator requires a '" ++ keyword.name ++ "'")

theorem SchemaDefect.isTold_iff {defect : SchemaDefect} {sentence : String} :
    defect.IsTold sentence ↔ defect.reason = sentence := by
  constructor
  · intro htold
    cases htold <;> rfl
  · rintro rfl
    cases defect <;> constructor

/-- A document is refused for its first defect, and the message tells what the
defect is and where it is. -/
theorem message_of_reading_iff {value : Json} {text : String} :
    (∃ e, Schema.ofJson? value = .error e ∧ e.message = text) ↔
      ∃ e sentence, (Schema.defects [] value).head? = some e ∧
        e.defect.IsTold sentence ∧
        text =
          "invalid schema: " ++
            (sentence ++ " (at " ++ e.path.text ++ ")") := by
  have hread : ∀ e, Schema.ofJson? value = .error e ↔
      (Schema.defects [] value).head? = some e :=
    fun e => (Schema.decode_failsFirst value []).eq_error_iff
  simp only [hread, SchemaDefect.isTold_iff]
  constructor
  · rintro ⟨e, hfirst, rfl⟩
    exact ⟨e, e.defect.reason, hfirst, rfl, rfl⟩
  · rintro ⟨e, sentence, hfirst, rfl, rfl⟩
    exact ⟨e, hfirst, rfl⟩

/-- Reading refuses the documents that have a defect, and its message names
the first one and the place of it.  The words in the message are those for the
kinds of values and the keywords themselves. -/
theorem reading_names_first_defect (value : Json) :
    ((∃ schema, Schema.ofJson? value = .ok schema) ↔
      Schema.defects [] value = []) ∧
      (∀ e, Schema.ofJson? value = .error e ↔
        (Schema.defects [] value).head? = some e) ∧
      (∀ (defect : SchemaDefect) sentence,
        defect.IsTold sentence ↔ defect.reason = sentence) ∧
      (∀ text, (∃ e, Schema.ofJson? value = .error e ∧ e.message = text) ↔
        ∃ e sentence, (Schema.defects [] value).head? = some e ∧
          e.defect.IsTold sentence ∧
          text =
            "invalid schema: " ++ (sentence ++ " (at " ++ e.path.text ++ ")")) ∧
      (∀ b n s items members, [Json.null, .bool b, .num n, .str s, .arr items,
          .obj members].map (fun other => other.kind.name) =
        ["null", "boolean", "number", "string", "array", "object"]) ∧
      [Keyword.definitions, .ref, .type, .enum, .elements, .properties,
          .optionalProperties, .additionalProperties, .values, .discriminator,
          .tag, .mapping].map Keyword.name =
        ["definitions", "ref", "type", "enum", "elements", "properties",
          "optionalProperties", "additionalProperties", "values",
          "discriminator", "tag", "mapping"] ∧
      SchemaPath.text [] = "/" ∧
      ∀ token path, SchemaPath.text (token :: path) = "/" ++
        String.intercalate "/" (token :: path) := by
  have hread := Schema.decode_failsFirst value []
  exact ⟨hread.exists_ok_iff, fun e => hread.eq_error_iff,
    fun defect sentence => SchemaDefect.isTold_iff,
    fun text => message_of_reading_iff, fun _ _ _ _ _ => rfl, rfl, rfl,
    SchemaPath.text_cons⟩

/-- The definitions come first, in key order.  A conflict stands for whatever is
wrong with the two forms. -/
example :
    Schema.defects [] (.object [
        ("properties", .null), ("ref", .null),
        ("definitions", .object [
          ("b", .bool true),
          ("a", .object [("enum", .arr [.str "x", .null, .str "x"])])])]) =
      [⟨["definitions", "a", "enum", "1"], .enumItemNotString .null⟩,
        ⟨["definitions", "a", "enum", "2"], .enumItemRepeated "x"⟩,
        ⟨["definitions", "b"], .schemaNotObject .boolean⟩,
        ⟨[], .formsCombined .ref .properties⟩] := by decide +kernel

end SchemaForms
