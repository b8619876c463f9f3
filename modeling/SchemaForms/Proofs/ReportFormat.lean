import SchemaForms.Report.Format
import SchemaForms.Proofs.Locations
import SchemaForms.Proofs.ReportReading
/-!
The format of reports says what it is meant to say.  `Json.Satisfies` is the
meaning of the keywords that occur in the format, as draft-07 of JSON Schema has
it.  By this meaning every written report satisfies the format, and the values
that satisfy it are those from which a report is read, as far as they write the
report and its violations as objects (`report_format_agrees`).
-/

namespace SchemaForms

namespace Json

/-- The types of values, by name: those of the kinds, and the integers among the
numbers. -/
inductive IsOfType : Json → String → Prop where
  | kind (value : Json) : IsOfType value value.kind.name
  | int (n : Int) : IsOfType (.num (.int n)) "integer"
  | float {x : Binary64} (hwhole : x.units % Binary64.one = 0) :
      IsOfType (.num (.float x)) "integer"

/-- A step of a pointer, in which `~0` is written for a tilde and `~1` for a
slash. -/
def pointerStep : List Char → List Char
  | '~' :: '0' :: rest => '~' :: pointerStep rest
  | '~' :: '1' :: rest => '/' :: pointerStep rest
  | c :: rest => c :: pointerStep rest
  | [] => []

/-- The steps of a reference that is a pointer into the document where it
stands.  Other references, and characters that are written by their codes, are
not considered. -/
def referenceSteps? (reference : String) : Option (List String) :=
  match reference.toList.splitOn '/' with
  | ['#'] :: steps =>
      some (steps.map fun step => String.ofList (pointerStep step))
  | _ => none

/-- A value satisfies a description, which is a part of the description `root`.
A description with a reference says what stands at the reference and nothing
else.  All other keywords are about values of one type, and say nothing about
other ones; `definitions` say nothing at all. -/
inductive Satisfies (root : Json) : Json → Json → Prop where
  | anything {value : Json} : Satisfies root (.bool true) value
  | reference {keywords : KeyMap Json} {reference : String}
      {steps : List String} {target value : Json}
      (hreference : keywords.get? "$ref" = some (.str reference))
      (hsteps : referenceSteps? reference = some steps)
      (htarget : root.Has steps target) (hvalue : Satisfies root target value) :
      Satisfies root (.obj keywords) value
  | keywords {keywords : KeyMap Json} {value : Json}
      (hreference : keywords.get? "$ref" = none)
      (htype : ∀ name, keywords.get? "type" = some (.str name) →
        value.IsOfType name)
      (htypes : ∀ names, keywords.get? "type" = some (.arr names) →
        ∃ name, .str name ∈ names ∧ value.IsOfType name)
      (hrequired : ∀ names members name,
        keywords.get? "required" = some (.arr names) →
        value = .obj members → .str name ∈ names → members.contains name = true)
      (hproperties : ∀ properties members name description member,
        keywords.get? "properties" = some (.obj properties) →
        value = .obj members →
          properties.get? name = some description →
          members.get? name = some member →
            Satisfies root description member)
      (hitems : ∀ description items item,
        keywords.get? "items" = some description →
        (∀ descriptions, description ≠ .arr descriptions) → value = .arr items →
        item ∈ items →
          Satisfies root description item)
      (hitemsAt : ∀ descriptions items (index : Nat) description item,
        keywords.get? "items" = some (.arr descriptions) → value = .arr items →
          descriptions[index]? = some description → items[index]? = some item →
            Satisfies root description item) :
      Satisfies root (.obj keywords) value

/-- A report in a value is written as an object, and so are its violations. -/
def WritesObjects (value : Json) : Prop :=
  ∃ members, value = .obj members ∧ ∀ items,
    members.get? "errors" = some (.arr items) →
    ∀ item ∈ items, ∃ others, item = .obj others

variable {root value : Json} {keywords : KeyMap Json}

theorem Kind.name_injective {kind other : Kind}
    (hname : kind.name = other.name) : kind = other := by
  cases kind <;> cases other <;> first | rfl | simp [name] at hname

/-- No kind is named like the integers. -/
theorem Kind.name_ne_integer (kind : Kind) : kind.name ≠ "integer" := by
  cases kind <;> simp [name]

theorem isOfType_name_iff {kind : Kind} : value.IsOfType kind.name ↔
    value.kind = kind := by
  constructor
  · intro htype
    generalize hname : kind.name = name at htype
    cases htype with
    | kind value => exact (Kind.name_injective hname).symm
    | int n => exact absurd hname kind.name_ne_integer
    | float hwhole => exact absurd hname kind.name_ne_integer
  · rintro rfl
    exact .kind value

section

variable {kind : Kind} (hreference : keywords.get? "$ref" = none)
  (htype : keywords.get? "type" = some (.str kind.name))

include hreference htype

theorem Satisfies.kind_eq (hsatisfies : Satisfies root (.obj keywords) value) :
    value.kind = kind := by
  cases hsatisfies with
  | reference hother =>
      rw [hreference] at hother
      cases hother
  | keywords _ hof => exact isOfType_name_iff.mp (hof _ htype)

/-- Of the other keywords, only those matter that are about values of this
kind. -/
theorem satisfies_of_kind (hkind : value.kind = kind)
    (hobject : ∀ members, value = .obj members →
      (∀ names name, keywords.get? "required" = some (.arr names) →
        .str name ∈ names →
        members.contains name = true) ∧
      ∀ properties name description member, keywords.get? "properties" =
        some (.obj properties) →
        properties.get? name = some description →
        members.get? name = some member →
          Satisfies root description member)
    (harray : ∀ items, value = .arr items → ∃ description,
      keywords.get? "items" = some description ∧
      (∀ descriptions, description ≠ .arr descriptions) ∧
      ∀ item ∈ items, Satisfies root description item) :
    Satisfies root (.obj keywords) value := by
  apply Satisfies.keywords hreference
  · intro name hname
    rw [htype] at hname
    cases hname
    exact isOfType_name_iff.mpr hkind
  · intro names hnames
    rw [htype] at hnames
    cases hnames
  · intro names members name hnames hvalue hname
    exact (hobject members hvalue).1 names name hnames hname
  · intro properties members name description member hproperties hvalue
      hdescription hmember
    exact (hobject members hvalue).2 properties name description member
      hproperties hdescription hmember
  · intro description items item hdescription _ hvalue hitem
    obtain ⟨other, hother, -, hall⟩ := harray items hvalue
    rw [hother] at hdescription
    cases hdescription
    exact hall item hitem
  · intro descriptions items index description item hdescriptions hvalue _ _
    obtain ⟨other, hother, hone, -⟩ := harray items hvalue
    rw [hother] at hdescriptions
    cases hdescriptions
    exact absurd rfl (hone descriptions)

variable (kind) in
/-- Values that have neither members nor items are only told apart by their
kinds. -/
theorem satisfies_iff_kind_eq (hobject : kind ≠ .object)
    (harray : kind ≠ .array) :
    Satisfies root (.obj keywords) value ↔ value.kind = kind := by
  constructor
  · exact Satisfies.kind_eq hreference htype
  · intro hkind
    refine satisfies_of_kind hreference htype hkind ?_ ?_
    · rintro members rfl
      exact absurd hkind.symm hobject
    · rintro items rfl
      exact absurd hkind.symm harray

end

section

variable (hreference : keywords.get? "$ref" = none)

include hreference

theorem satisfies_array_iff {description : Json}
    (htype : keywords.get? "type" = some (.str "array"))
    (hitems : keywords.get? "items" = some description)
    (hone : ∀ descriptions, description ≠ .arr descriptions) :
    Satisfies root (.obj keywords) value ↔
      ∃ items, value = .arr items ∧ ∀ item ∈ items,
        Satisfies root description item := by
  have htype' : keywords.get? "type" = some (.str Kind.array.name) := htype
  constructor
  · intro hsatisfies
    have hkind := hsatisfies.kind_eq hreference htype'
    cases value with
    | arr items =>
        refine ⟨items, rfl, ?_⟩
        intro item hitem
        cases hsatisfies with
        | reference hother =>
            rw [hreference] at hother
            cases hother
        | keywords _ _ _ _ _ hall => exact hall _ _ _ hitems hone rfl hitem
    | _ => cases hkind
  · rintro ⟨items, rfl, hall⟩
    refine satisfies_of_kind hreference htype' rfl nofun ?_
    intro others hothers
    cases hothers
    exact ⟨description, hitems, hone, hall⟩

/-- An object of this kind has the required members, and all its members are as
they are described. -/
theorem satisfies_object_iff {required : List String} {properties : KeyMap Json}
    (htype : keywords.get? "type" = some (.str "object"))
    (hrequired : keywords.get? "required" = some (.arr (required.map .str)))
    (hproperties : keywords.get? "properties" = some (.obj properties)) :
    Satisfies root (.obj keywords) value ↔
      ∃ members, value = .obj members ∧
        (∀ name ∈ required, members.contains name = true) ∧
        ∀ name description member, properties.get? name = some description →
          members.get? name = some member →
          Satisfies root description member := by
  have htype' : keywords.get? "type" = some (.str Kind.object.name) := htype
  constructor
  · intro hsatisfies
    have hkind := hsatisfies.kind_eq hreference htype'
    cases value with
    | obj members =>
        refine ⟨members, rfl, ?_⟩
        cases hsatisfies with
        | reference hother =>
            rw [hreference] at hother
            cases hother
        | keywords _ _ _ hneeds hall =>
            constructor
            · intro name hname
              exact hneeds _ members name hrequired rfl
                (List.mem_map_of_mem hname)
            · intro name description member hdescription hmember
              exact hall properties members name description member hproperties
                rfl hdescription hmember
    | _ => cases hkind
  · rintro ⟨members, rfl, hneeds, hall⟩
    refine satisfies_of_kind hreference htype' rfl ?_ nofun
    intro others hothers
    cases hothers
    constructor
    · intro names name hnames hname
      rw [hrequired] at hnames
      cases hnames
      obtain ⟨other, hother, heq⟩ := List.mem_map.mp hname
      cases heq
      exact hneeds name hother
    · intro others name description member hothers hdescription hmember
      rw [hproperties] at hothers
      cases hothers
      exact hall name description member hdescription hmember

end

/-- A reference says what stands there. -/
theorem satisfies_reference_iff {reference : String} {steps : List String}
    {target : Json} (hreference : keywords.get? "$ref" = some (.str reference))
    (hsteps : referenceSteps? reference = some steps)
    (htarget : ∀ other, root.Has steps other ↔ other = target) :
    Satisfies root (.obj keywords) value ↔ Satisfies root target value := by
  constructor
  · intro hsatisfies
    cases hsatisfies with
    | reference hother hsteps' htarget' hvalue =>
        rw [hreference] at hother
        cases hother
        rw [hsteps] at hsteps'
        cases hsteps'
        rwa [(htarget _).mp htarget'] at hvalue
    | keywords hnone =>
        rw [hreference] at hnone
        cases hnone
  · exact .reference hreference hsteps ((htarget target).mpr rfl)

end Json

namespace Json.Tree

variable {root value : Json} {keywords properties : List (String × Tree)}
  {required : List String}

/-- The last member of a key counts. -/
theorem get?_memberValues (members : List (String × Tree)) (key : String) :
    (KeyMap.ofList (memberValues members)).get? key =
      (members.reverse.lookup key).map Tree.value := by
  rw [KeyMap.get?_ofList, memberValues_eq_map, ← List.map_reverse]
  induction members.reverse with
  | nil => rfl
  | cons entry rest ih =>
      obtain ⟨first, t⟩ := entry
      by_cases hkey : key = first
      · simp [hkey]
      · simp [List.lookup_cons, beq_false_of_ne hkey, ih]

theorem get?_of_lookup {members : List (String × Tree)} {key : String}
    {t : Tree} (hlookup : members.reverse.lookup key = some t) :
    (KeyMap.ofList (memberValues members)).get? key = some t.value := by
  rw [get?_memberValues, hlookup, Option.map_some]

theorem get?_of_lookup_none {members : List (String × Tree)} {key : String}
    (hlookup : members.reverse.lookup key = none) :
    (KeyMap.ofList (memberValues members)).get? key = none := by
  rw [get?_memberValues, hlookup, Option.map_none]

/-- An object with certain members, of which each one is described once. -/
theorem satisfies_object_iff
    (hreference : keywords.reverse.lookup "$ref" = none)
    (htype : keywords.reverse.lookup "type" = some (.str "object"))
    (hrequired : keywords.reverse.lookup "required" =
      some (.arr (required.map .str)))
    (hproperties : keywords.reverse.lookup "properties" =
      some (.obj properties))
    (honce : ∀ entry ∈ properties, properties.reverse.lookup entry.1 =
      some entry.2) :
    Satisfies root (obj keywords).value value ↔
      ∃ members, value = .obj members ∧
        (∀ name ∈ required, members.contains name = true) ∧
        ∀ entry ∈ properties, ∀ member, members.get? entry.1 = some member →
          Satisfies root entry.2.value member := by
  have hneeds : (KeyMap.ofList (memberValues keywords)).get? "required" =
      some (.arr (required.map .str)) := by
    rw [get?_of_lookup hrequired, Tree.value, itemValues_eq_map, List.map_map]
    rfl
  refine (Json.satisfies_object_iff (get?_of_lookup_none hreference)
    (get?_of_lookup htype) hneeds (get?_of_lookup hproperties)).trans ?_
  apply exists_congr
  intro members
  apply and_congr_right
  intro _
  apply and_congr_right
  intro _
  constructor
  · intro hall entry hentry member hmember
    exact hall _ _ member (get?_of_lookup (honce entry hentry)) hmember
  · intro hall name description member hdescription hmember
    have hmem := KeyMap.mem_of_get?_ofList hdescription
    rw [memberValues_eq_map] at hmem
    obtain ⟨entry, hentry, heq⟩ := List.mem_map.mp hmem
    cases heq
    exact hall entry hentry member hmember

end Json.Tree

namespace Report

open Json (Satisfies)
open Json.Tree (get?_of_lookup get?_of_lookup_none)

variable {root value : Json}

theorem satisfies_flag_iff (description : String) :
    Satisfies root (flag description).value value ↔ ∃ b, value = .bool b := by
  refine (Json.satisfies_iff_kind_eq .boolean (get?_of_lookup_none rfl)
    (get?_of_lookup (t := .str "boolean") rfl) nofun nofun).trans ?_
  cases value <;> simp [Json.kind]

/-- An array of what some keywords describe. -/
theorem satisfies_arrayOf_iff (items : List (String × Json.Tree)) :
    Satisfies root (arrayOf items).value value ↔
      ∃ list, value = .arr list ∧ ∀ item ∈ list,
        Satisfies root (Json.Tree.obj items).value item :=
  Json.satisfies_array_iff (get?_of_lookup_none rfl)
    (get?_of_lookup (t := .str "array") rfl)
    (get?_of_lookup (t := .obj items) rfl) nofun

theorem satisfies_path_iff :
    Satisfies root (arrayOf [("type", .str "string")]).value value ↔
      ∃ path, value = Violation.pathJson path := by
  have hitem : ∀ item,
      Satisfies root (Json.Tree.obj [("type", .str "string")]).value item ↔
      item ∈ Set.range Json.str := by
    intro item
    refine (Json.satisfies_iff_kind_eq .string (get?_of_lookup_none rfl)
      (get?_of_lookup (t := .str "string") rfl) nofun nofun).trans ?_
    cases item <;> simp [Json.kind]
  have hpath : ∀ items, (∀ item ∈ items, item ∈ Set.range Json.str) ↔
      ∃ path : List String, path.map Json.str = items :=
    fun items => (Set.ext_iff.mp (Set.range_list_map Json.str) items).symm
  simp only [satisfies_arrayOf_iff, hitem, hpath, Violation.pathJson]
  constructor
  · rintro ⟨_, rfl, path, rfl⟩
    exact ⟨path, rfl⟩
  · rintro ⟨path, rfl⟩
    exact ⟨_, rfl, path, rfl⟩

/-- A member that is required is there, and is as it is described. -/
theorem exists_required {members : KeyMap Json} {required : List String}
    {properties : List (String × Json.Tree)} {name : String} {t : Json.Tree}
    (hneeds : ∀ name ∈ required, members.contains name = true)
    (hall : ∀ entry ∈ properties, ∀ member, members.get? entry.1 = some member →
      Satisfies root entry.2.value member)
    (hname : name ∈ required) (hentry : (name, t) ∈ properties) :
    ∃ member, members.get? name = some member ∧
      Satisfies root t.value member := by
  obtain ⟨member, hmember⟩ := Entries.contains_iff.mp (hneeds name hname)
  exact ⟨member, hmember, hall (name, t) hentry member hmember⟩

/-- A member is as it is described, if what it is known to be is. -/
theorem satisfies_member {members : KeyMap Json} {name : String} {known : Json}
    {t : Json.Tree} (hknown : members.get? name = some known)
    (hsatisfies : Satisfies root t.value known) :
    ∀ member, members.get? name = some member →
      Satisfies root t.value member := by
  intro member hmember
  rw [hknown] at hmember
  cases hmember
  exact hsatisfies

/-- The description of violations, in some words. -/
def violationIn (words : String) : Json.Tree :=
  .obj <| ("description", .str words) ::
    objectWith ["instancePath", "schemaPath"]
      [("instancePath", arrayOf [("type", .str "string")]),
        ("schemaPath", arrayOf [("type", .str "string")])]

/-- The objects that are described as violations, in whatever words, are those
from which a violation is read. -/
theorem satisfies_violation_iff (words : String) :
    Satisfies root (violationIn words).value value ↔
      ∃ members v, value = .obj members ∧
        Violation.ofJson? (.obj members) = some v := by
  refine (Json.Tree.satisfies_object_iff rfl rfl rfl rfl ?_).trans ?_
  · exact List.forall_mem_cons.mpr ⟨rfl, List.forall_mem_singleton.mpr rfl⟩
  · constructor
    · rintro ⟨members, rfl, hneeds, hall⟩
      obtain ⟨first, hfirst, hinstance⟩ :=
        exists_required hneeds hall (by simp) List.mem_cons_self
      obtain ⟨second, hsecond, hschema⟩ :=
        exists_required hneeds hall (by simp)
          (List.mem_cons_of_mem _ List.mem_cons_self)
      obtain ⟨instancePath, rfl⟩ := satisfies_path_iff.mp hinstance
      obtain ⟨schemaPath, rfl⟩ := satisfies_path_iff.mp hschema
      exact ⟨members, ⟨instancePath, schemaPath⟩, rfl,
        Violation.ofJson?_obj_iff.mpr ⟨hfirst, hsecond⟩⟩
    · rintro ⟨members, v, rfl, hv⟩
      obtain ⟨hinstance, hschema⟩ := Violation.ofJson?_obj_iff.mp hv
      refine ⟨members, rfl, by simp [Entries.contains, hinstance, hschema], ?_⟩
      rw [List.forall_mem_cons, List.forall_mem_singleton]
      constructor
      · exact satisfies_member hinstance (satisfies_path_iff.mpr ⟨_, rfl⟩)
      · exact satisfies_member hschema (satisfies_path_iff.mpr ⟨_, rfl⟩)

theorem has_nil_iff {part : Json} : value.Has [] part ↔ part = value := by
  constructor
  · intro hpart
    cases hpart
    rfl
  · rintro rfl
    exact .self

theorem has_cons_iff {members : KeyMap Json} {key : String} {path : List String}
    {part : Json} :
    (Json.obj members).Has (key :: path) part ↔
      ∃ member, members.get? key = some member ∧ member.Has path part := by
  constructor
  · intro hpart
    cases hpart with
    | member hmember hpart => exact ⟨_, hmember, hpart⟩
  · rintro ⟨member, hmember, hpart⟩
    exact .member hmember hpart

/-- What stands at the reference of the format: the description of
violations. -/
theorem format_has_iff {part : Json} :
    format.value.Has ["definitions", "ValidationError"] part ↔
      part = (violationIn
        ("One constraint violation, located in both the instance " ++
          "and the schema.")).value := by
  rw [format, Json.Tree.value, has_cons_iff, get?_of_lookup rfl]
  simp only [Option.some.injEq, exists_eq_left']
  rw [Json.Tree.value, has_cons_iff, get?_of_lookup rfl]
  simp only [Option.some.injEq, exists_eq_left']
  exact has_nil_iff

theorem satisfies_errors_iff :
    Satisfies format.value
        (arrayOf [("$ref", .str "#/definitions/ValidationError")]).value value ↔
      ∃ items, value = .arr items ∧ ∀ item ∈ items, ∃ members v,
        item = .obj members ∧
        Violation.ofJson? (.obj members) = some v := by
  have hsteps : Json.referenceSteps? "#/definitions/ValidationError" =
      some ["definitions", "ValidationError"] := by
    decide +kernel
  have hitem : ∀ item,
      Satisfies format.value
          (Json.Tree.obj [("$ref", .str "#/definitions/ValidationError")]).value
          item ↔
        ∃ members v, item = .obj members ∧
          Violation.ofJson? (.obj members) = some v := by
    intro item
    refine (Json.satisfies_reference_iff
      (get?_of_lookup (t := .str "#/definitions/ValidationError") rfl)
      hsteps fun other => format_has_iff).trans ?_
    exact satisfies_violation_iff _
  rw [satisfies_arrayOf_iff]
  simp only [hitem]

/-- The values that satisfy the format are the objects with two truth values and
a list of violations as it is described. -/
theorem satisfies_format_iff :
    Satisfies format.value format.value value ↔
      ∃ members valid truncated errors, value = .obj members ∧
        members.get? "valid" = some (.bool valid) ∧
        members.get? "truncated" = some (.bool truncated) ∧
        members.get? "errors" = some errors ∧
        Satisfies format.value
          (arrayOf [("$ref", .str "#/definitions/ValidationError")]).value
          errors := by
  refine (Json.Tree.satisfies_object_iff rfl rfl rfl rfl ?_).trans ?_
  · exact List.forall_mem_cons.mpr
      ⟨rfl, List.forall_mem_cons.mpr ⟨rfl, List.forall_mem_singleton.mpr rfl⟩⟩
  · constructor
    · rintro ⟨members, rfl, hneeds, hall⟩
      obtain ⟨errors, herrors, hitems⟩ :=
        exists_required hneeds hall (by simp) List.mem_cons_self
      obtain ⟨second, htruncated, hsecond⟩ :=
        exists_required hneeds hall (by simp)
          (List.mem_cons_of_mem _ List.mem_cons_self)
      obtain ⟨third, hvalid, hthird⟩ := exists_required hneeds hall (by simp)
        (List.mem_cons_of_mem _ (List.mem_cons_of_mem _ List.mem_cons_self))
      obtain ⟨truncated, rfl⟩ := (satisfies_flag_iff _).mp hsecond
      obtain ⟨valid, rfl⟩ := (satisfies_flag_iff _).mp hthird
      exact ⟨members, valid, truncated, errors, rfl, hvalid, htruncated,
        herrors, hitems⟩
    · rintro ⟨members, valid, truncated, errors, rfl, hvalid, htruncated,
        herrors, hitems⟩
      refine ⟨members,
        rfl, by simp [Entries.contains, hvalid, htruncated, herrors], ?_⟩
      rw [List.forall_mem_cons, List.forall_mem_cons, List.forall_mem_singleton]
      refine ⟨?_, ?_, ?_⟩
      · exact satisfies_member herrors hitems
      · exact satisfies_member htruncated ((satisfies_flag_iff _).mpr ⟨_, rfl⟩)
      · exact satisfies_member hvalid ((satisfies_flag_iff _).mpr ⟨_, rfl⟩)

/-- Items are read as violations if there is one for each of them. -/
theorem exists_violations_iff {items : List Json} :
    (∃ errors, List.Forall₂ (fun item v => Violation.ofJson? item = some v)
        items errors) ↔
      ∀ item ∈ items, ∃ v, Violation.ofJson? item = some v := by
  induction items with
  | nil => simp
  | cons item rest ih => simp [List.forall₂_cons_left_iff, ← ih]

theorem writesObjects_tree (report : Report) :
    report.tree.value.WritesObjects := by
  have herrors :
      (KeyMap.ofList (Json.Tree.memberValues report.members)).get? "errors" =
      some (Json.Tree.arr (report.errors.map Violation.tree)).value :=
    get?_of_lookup rfl
  refine ⟨_, rfl, ?_⟩
  intro items hitems item hitem
  rw [herrors] at hitems
  cases hitems
  rw [Json.Tree.itemValues_eq_map, List.map_map] at hitem
  obtain ⟨v, -, rfl⟩ := List.mem_map.mp hitem
  exact ⟨_, rfl⟩

/-- The written form of reports, their description and the reading of them
agree.  Every report is written as a value that satisfies the format.  A value
satisfies the format exactly if a report is read from it and it writes the
report and its violations as objects, whatever other members these have. -/
theorem report_format_agrees :
    (∀ report : Report, Satisfies format.value format.value report.tree.value) ∧
      ∀ value : Json, Satisfies format.value format.value value ↔
        (∃ report, ofJson? value = some report) ∧ value.WritesObjects := by
  have hiff : ∀ value : Json, Satisfies format.value format.value value ↔
      (∃ report, ofJson? value = some report) ∧ value.WritesObjects := by
    intro value
    rw [satisfies_format_iff]
    constructor
    · rintro ⟨members, valid, truncated, errors, rfl, hvalid, htruncated,
        herrors, hsatisfies⟩
      obtain ⟨items, rfl, hitems⟩ := satisfies_errors_iff.mp hsatisfies
      constructor
      · obtain ⟨violations, hviolations⟩ :=
          exists_violations_iff.mpr fun item hitem => by
            obtain ⟨others, v, rfl, hv⟩ := hitems item hitem
            exact ⟨v, hv⟩
        exact ⟨⟨valid, truncated, violations⟩,
          ofJson?_obj_iff.mpr ⟨hvalid, htruncated, items, herrors, hviolations⟩⟩
      · refine ⟨members, rfl, ?_⟩
        intro others hothers item hitem
        rw [herrors] at hothers
        cases hothers
        obtain ⟨parts, -, hparts, -⟩ := hitems item hitem
        exact ⟨parts, hparts⟩
    · rintro ⟨⟨report, hreport⟩, members, rfl, hobjects⟩
      obtain ⟨hvalid, htruncated, items, herrors, hviolations⟩ :=
        ofJson?_obj_iff.mp hreport
      refine ⟨members, _, _, _, rfl, hvalid, htruncated, herrors,
        satisfies_errors_iff.mpr ⟨items, rfl, ?_⟩⟩
      intro item hitem
      obtain ⟨others, rfl⟩ := hobjects items herrors item hitem
      obtain ⟨v, hv⟩ := exists_violations_iff.mp ⟨_, hviolations⟩ _ hitem
      exact ⟨others, v, rfl, hv⟩
  refine ⟨?_, hiff⟩
  intro report
  exact (hiff _).mpr ⟨⟨report, ofJson?_tree report⟩, writesObjects_tree report⟩

end Report

end SchemaForms
