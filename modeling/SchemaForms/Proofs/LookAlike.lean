import SchemaForms.Proofs.PairedParts
/-!
What a schema sees of a value.  Two values look alike to a schema if they differ
only where it does not inspect them (`Alike`): below an empty form, in a string
or a number of which only the type matters, in the value of a member that is not
declared.  The validations of values that look alike go through the same steps,
so they have the same result (`validate_of_alike`).
-/

namespace SchemaForms

/-- Whether a value is what a form demands of it first: a value of its type, one
of its strings, an array, or an object. -/
def Form.fits : Form → Json → Bool
  | .empty, _ | .ref _, _ => true
  | .type primitive, value => primitive.accepts value
  | .enum strings, .str s => strings.contains s
  | .elements _, .arr _ => true
  | .properties .., .obj _ | .values _, .obj _ | .discriminator .., .obj _ =>
      true
  | _, _ => false

/-- Two values look alike to a schema below a root; the tag is a member that is
known already. -/
inductive Alike (root : Schema) : Schema → Option String → Json →
    Json → Prop where
  /-- To the empty form, everything looks alike. -/
  | empty {s : Schema} {tag : Option String} {v w : Json}
      (hform : s.form = .empty) :
      Alike root s tag v w
  /-- To a ref, what looks alike to the root definition of its name, without a
  tag. -/
  | ref {s target : Schema} {tag : Option String} {v w : Json} {name : String}
      (hform : s.form = .ref name)
      (htarget : root.definition? name = some target)
      (halike : Alike root target none v w) : Alike root s tag v w
  /-- To a ref to nothing, everything looks alike. -/
  | dangling {s : Schema} {tag : Option String} {v w : Json} {name : String}
      (hform : s.form = .ref name) (htarget : root.definition? name = none) :
      Alike root s tag v w
  /-- Both values are not of the type, no strings of the enum, no arrays, or no
  objects. -/
  | misfits {s : Schema} {tag : Option String} {v w : Json}
      (hv : s.form.fits v = false) (hw : s.form.fits w = false) :
      Alike root s tag v w
  /-- Both values are of the type. -/
  | type {s : Schema} {tag : Option String} {v w : Json} {type : PrimitiveType}
      (hform : s.form = .type type) (hv : type.accepts v = true)
      (hw : type.accepts w = true) :
      Alike root s tag v w
  /-- Both values are strings of the enum. -/
  | enum {s : Schema} {tag : Option String} {values : KeySet}
      {string string' : String} (hform : s.form = .enum values)
      (hv : values.contains string = true)
      (hw : values.contains string' = true) :
      Alike root s tag (.str string) (.str string')
  /-- Arrays of one length that look alike item by item. -/
  | elements {s schema : Schema} {tag : Option String}
      {items items' : List Json} (hform : s.form = .elements schema)
      (hlength : items.length = items'.length)
      (hitems : ∀ (index : Nat) item item', items[index]? = some item →
        items'[index]? = some item' → Alike root schema none item item') :
      Alike root s tag (.arr items) (.arr items')
  /-- Objects with the same keys that look alike member by member. -/
  | values {s schema : Schema} {tag : Option String}
      {members members' : KeyMap Json} (hform : s.form = .values schema)
      (hkeys : members.keys = members'.keys)
      (hmembers : ∀ key member member', members.get? key = some member →
        members'.get? key = some member' →
        Alike root schema none member member') :
      Alike root s tag (.obj members) (.obj members')
  /-- Objects that have the same ones of the declared members, which look alike
  one by one, and the same other keys but the tag, unless other members may be
  there. -/
  | properties {s : Schema} {tag : Option String}
      {required optional : Option (KeyMap Schema)} {additional : Bool}
      {members members' : KeyMap Json}
      (hform : s.form = .properties required optional additional)
      (hpresent : ∀ key, declares required key = true ∨
        declares optional key = true →
        members.contains key = members'.contains key)
      (hrequired : ∀ schemas key schema member member',
        required = some schemas →
        schemas.get? key = some schema → members.get? key = some member →
          members'.get? key = some member' →
          Alike root schema none member member')
      (hoptional : ∀ schemas key schema member member',
        optional = some schemas →
        schemas.get? key = some schema → members.get? key = some member →
          members'.get? key = some member' →
          Alike root schema none member member')
      (hothers : additional = false → ∀ key,
        isDeclared required optional tag key = false →
        members.contains key = members'.contains key) :
      Alike root s tag (.obj members) (.obj members')
  /-- Objects without the tag. -/
  | noTag {s : Schema} {tag : Option String} {name : String}
      {mapping : KeyMap Schema} {members members' : KeyMap Json}
      (hform : s.form = .discriminator name mapping)
      (hv : members.get? name = none) (hw : members'.get? name = none) :
      Alike root s tag (.obj members) (.obj members')
  /-- Objects of which the tag is no string. -/
  | badTag {s : Schema} {tag : Option String} {name : String}
      {mapping : KeyMap Schema} {members members' : KeyMap Json}
      {member member' : Json} (hform : s.form = .discriminator name mapping)
      (hv : members.get? name = some member)
      (hmember : ∀ string, member ≠ .str string)
      (hw : members'.get? name = some member')
      (hmember' : ∀ string, member' ≠ .str string) :
      Alike root s tag (.obj members) (.obj members')
  /-- Objects of which the tag is a string that names no branch. -/
  | noBranch {s : Schema} {tag : Option String} {name branch branch' : String}
      {mapping : KeyMap Schema} {members members' : KeyMap Json}
      (hform : s.form = .discriminator name mapping)
      (hv : members.get? name = some (.str branch))
      (hbranch : mapping.get? branch = none)
      (hw : members'.get? name = some (.str branch'))
      (hbranch' : mapping.get? branch' = none) :
      Alike root s tag (.obj members) (.obj members')
  /-- Objects of which the tag names the same branch, to which they look alike
  with that tag. -/
  | branch {s schema : Schema} {tag : Option String} {name branch : String}
      {mapping : KeyMap Schema} {members members' : KeyMap Json}
      (hform : s.form = .discriminator name mapping)
      (hv : members.get? name = some (.str branch))
      (hw : members'.get? name = some (.str branch))
      (hbranch : mapping.get? branch = some schema)
      (halike : Alike root schema (some name) (.obj members) (.obj members')) :
      Alike root s tag (.obj members) (.obj members')

/-- Whatever does not fit a schema is blamed on the same keyword. -/
theorem Schema.exists_blamed (root s : Schema) :
    ∃ keyword : Keyword, ∀ place value tag, s.form.fits value = false →
      Node.parts root ⟨place, s, value, tag⟩ =
        [.clash (place.underSchema keyword.name)] := by
  obtain ⟨definitions, form⟩ := s
  cases form with
  | empty =>
      refine ⟨.ref, ?_⟩
      intro place value tag hfits
      cases hfits
  | ref name =>
      refine ⟨.ref, ?_⟩
      intro place value tag hfits
      cases hfits
  | type type =>
      refine ⟨.type, ?_⟩
      intro place value tag hfits
      have hrejects : type.accepts value = false := hfits
      simp [Node.parts, hrejects]
  | enum values =>
      refine ⟨.enum, ?_⟩
      intro place value tag hfits
      cases value with
      | str s =>
          have habsent : values.contains s = false := hfits
          simp [Node.parts, habsent]
      | _ => rfl
  | elements schema =>
      refine ⟨.elements, ?_⟩
      intro place value tag hfits
      cases value with
      | arr items => cases hfits
      | _ => rfl
  | properties required optional additional =>
      refine ⟨if required.isSome then .properties else .optionalProperties, ?_⟩
      intro place value tag hfits
      cases value with
      | obj members => cases hfits
      | _ => rfl
  | values schema =>
      refine ⟨.values, ?_⟩
      intro place value tag hfits
      cases value with
      | obj members => cases hfits
      | _ => rfl
  | discriminator tag mapping =>
      refine ⟨.discriminator, ?_⟩
      intro place value tag hfits
      cases value with
      | obj members => cases hfits
      | _ => rfl

theorem Part.ofBranch_of_badTag {place : Place} {tag : String}
    {mapping : KeyMap Schema} {members : KeyMap Json} {member : Json}
    (htag : members.get? tag = some member)
    (hmember : ∀ string, member ≠ .str string) :
    ofBranch place tag mapping members =
      .clash ((place.underSchema Keyword.tag.name).underInstance tag) := by
  unfold ofBranch
  rw [htag]
  cases member with
  | str string => exact absurd rfl (hmember string)
  | _ => rfl

/-- A schema demands alike of values that look alike to it. -/
def Schema.SeesAlike (root : Schema) (tag : Option String) (s : Schema)
    (value : Json) (s' : Schema) (value' : Json) : Prop :=
  s' = s ∧ Alike root s tag value value'

variable {root s : Schema} {tag : Option String} {v w : Json}
  {members members' : KeyMap Json}

/-- The members that a map of schemas declares look alike, if the same ones are
there. -/
theorem declareAlike_of_alike {declared : Option (KeyMap Schema)}
    (hpresent : ∀ key, declares declared key = true →
      members.contains key = members'.contains key)
    (hmembers : ∀ schemas key schema member member', declared = some schemas →
      schemas.get? key = some schema → members.get? key = some member →
        members'.get? key = some member' →
        Alike root schema none member member') :
    Option.Rel (fun schemas schemas' =>
      DeclareAlike root.SeesAlike schemas schemas' members members')
      declared declared := by
  cases declared with
  | none => exact .none
  | some schemas =>
      refine .some ⟨rfl, ?_⟩
      intro key schema schema' hschema hschema'
      cases hschema.symm.trans hschema'
      apply Entries.rel_get?
        (hpresent key (Entries.contains_iff.2 ⟨schema, hschema⟩))
      intro member member' hmember hmember'
      exact ⟨rfl, hmembers schemas key schema member member' rfl hschema
        hmember hmember'⟩

/-- The parts of two nodes whose values look alike come in pairs. -/
theorem Alike.parts_paired {same : Violation → Violation → Prop}
    (hsame : ∀ v, same v v) (halike : Alike root s tag v w) (place : Place) :
    List.Forall₂ (Part.Paired (Node.Matches Eq root.SeesAlike) same)
      (Node.parts root ⟨place, s, v, tag⟩)
      (Node.parts root ⟨place, s, w, tag⟩) := by
  have htogether : Place.Together Eq same := Place.together_eq hsame
  have hclash : ∀ place,
      List.Forall₂ (Part.Paired (Node.Matches Eq root.SeesAlike) same)
      [.clash place] [.clash place] :=
        fun place => .cons (.clash (hsame _)) .nil
  obtain ⟨definitions, form⟩ := s
  cases halike with
  | empty hform =>
      cases hform
      exact .nil
  | ref hform htarget halike =>
      cases hform
      simp only [Node.parts, htarget]
      exact .cons (.node ⟨rfl, rfl, rfl, halike⟩) .nil
  | dangling hform htarget =>
      cases hform
      simp only [Node.parts, htarget]
      exact .cons .dangling .nil
  | misfits hv hw =>
      obtain ⟨keyword, hblamed⟩ := Schema.exists_blamed root ⟨definitions, form⟩
      rw [hblamed place v tag hv, hblamed place w tag hw]
      exact hclash _
  | type hform hv hw =>
      cases hform
      simp only [Node.parts, hv, hw, if_true]
      exact .nil
  | enum hform hv hw =>
      cases hform
      simp only [Node.parts, hv, hw, if_true]
      exact .nil
  | elements hform hlength hitems =>
      cases hform
      apply Part.ofItems_paired htogether rfl hlength
      intro index item item' hitem hitem'
      exact ⟨rfl, hitems index item item' hitem hitem'⟩
  | values hform hkeys hmembers =>
      cases hform
      apply Part.ofMembers_paired htogether rfl hkeys
      intro key member member' hmember hmember'
      exact ⟨rfl, hmembers key member member' hmember hmember'⟩
  | properties hform hpresent hrequired hoptional hothers =>
      cases hform
      refine Part.ofProperties_paired htogether rfl ?_ ?_ ?_
      · exact declareAlike_of_alike
          (fun key hkey => hpresent key (.inl hkey)) hrequired
      · exact declareAlike_of_alike
          (fun key hkey => hpresent key (.inr hkey)) hoptional
      · intro hadditional key
        apply and_congr_left
        intro hkey
        rw [hothers hadditional key hkey]
  | noTag hform hv hw =>
      cases hform
      simp only [Node.parts, Part.ofBranch, hv, hw]
      exact hclash _
  | badTag hform hv hmember hw hmember' =>
      cases hform
      simp only [Node.parts]
      rw [Part.ofBranch_of_badTag hv hmember,
        Part.ofBranch_of_badTag hw hmember']
      exact hclash _
  | noBranch hform hv hbranch hw hbranch' =>
      cases hform
      simp only [Node.parts, Part.ofBranch, hv, hbranch, hw, hbranch']
      exact hclash _
  | branch hform hv hw hbranch halike =>
      cases hform
      simp only [Node.parts, Part.ofBranch, hv, hw, hbranch]
      exact .cons (.node ⟨rfl, rfl, rfl, halike⟩) .nil

/-- The validations of values that look alike are in lock step. -/
theorem lockStep_alike (limits : Limits) (root : Schema) :
    LockStep (Node.Matches Eq root.SeesAlike) id limits root root := by
  constructor
  · rintro n n' ⟨hplace, -, hschema, -⟩
    rw [Node.tooDeep, Node.tooDeep, hschema, hplace]
  · rintro ⟨place, s, v, tag⟩ ⟨place', s', w, tag'⟩
      ⟨hplace, htag, hschema, halike⟩
    obtain rfl : place = place' := hplace
    obtain rfl : tag' = tag := htag
    obtain rfl : s' = s := hschema
    exact halike.parts_paired (fun _ => rfl) place

/-- Values that look alike to a schema, as the root, are validated with the same
result, within all limits and whether the schema is checked or not. -/
theorem validate_of_alike (halike : Alike s s none v w) (limits : Limits) :
    validate limits s v = validate limits s w := by
  have hmatches : (Node.start s v).Matches Eq s.SeesAlike (.start s w) :=
    ⟨rfl, rfl, rfl, halike⟩
  exact ((lockStep_alike limits s).validate_eq_of_id hmatches).symm

/-- Trees look alike if the same members are there, the labels are texts in both
trees or in none, and the children look alike. -/
theorem alike_trees {s : Schema} (hform : s.form = .ref "tree")
    (hkeys : members.keys = members'.keys)
    (hlabels : ∀ label label', members.get? "label" = some label →
      members'.get? "label" = some label' →
        PrimitiveType.string.accepts label =
          PrimitiveType.string.accepts label')
    (hchildren : ∀ children children', members.get? "children" = some children →
      members'.get? "children" = some children' →
        Alike labelledTree (.ofForm (.elements (.ofForm (.ref "tree")))) none
          children children') :
    Alike labelledTree s none (.obj members) (.obj members') := by
  refine .ref hform rfl (.properties rfl ?_ ?_ ?_ ?_)
  · intro key _
    exact Entries.contains_eq_of_keys_eq hkeys key
  · rintro _ key schema label label' ⟨rfl⟩ hkey hlabel hlabel'
    have hentry := KeyMap.mem_of_get?_ofList hkey
    obtain ⟨rfl, rfl⟩ : key = "label" ∧ schema = .ofForm (.type .string) := by
      simpa using hentry
    have haccepts := hlabels label label' hlabel hlabel'
    cases htext : PrimitiveType.string.accepts label with
    | true => exact .type rfl htext (haccepts.symm.trans htext)
    | false => exact .misfits htext (haccepts.symm.trans htext)
  · rintro _ key schema children children' ⟨rfl⟩ hkey hmember hmember'
    have hentry := KeyMap.mem_of_get?_ofList hkey
    obtain ⟨rfl, rfl⟩ : key = "children" ∧
      schema = .ofForm (.elements (.ofForm (.ref "tree"))) := by
        simpa using hentry
    exact hchildren children children' hmember hmember'
  · intro _ key _
    exact Entries.contains_eq_of_keys_eq hkeys key

def leaf (label : String) : KeyMap Json :=
  KeyMap.ofList [("label", .str label)]

/-- A tree with one leaf, and with one member too many. -/
def oddTree (label size : Json) (child : String) : KeyMap Json :=
  KeyMap.ofList [("label", label), ("size", size),
    ("children", .arr [.obj (leaf child)])]

/-- The trees differ in a label that is no text, in the text of another one, and
in what is too much. -/
theorem validate_of_alike_oddTree :
    Alike labelledTree labelledTree none
      (.obj (oddTree (.num (.int 1)) .null "b"))
        (.obj (oddTree .null (.bool true) "c")) ∧
      validate ⟨3, 9⟩ labelledTree (.obj (oddTree (.num (.int 1)) .null "b")) =
        .ok [⟨["label"],
          ["definitions", "tree", "properties", "label", "type"]⟩,
          ⟨["size"], ["definitions", "tree"]⟩] ∧
      validate ⟨3, 9⟩ labelledTree (.obj (oddTree .null (.bool true) "c")) =
        .ok [⟨["label"],
          ["definitions", "tree", "properties", "label", "type"]⟩,
          ⟨["size"], ["definitions", "tree"]⟩] := by
  have hleaf : Alike labelledTree (.ofForm (.ref "tree")) none (.obj (leaf "b"))
      (.obj (leaf "c")) := by
    refine alike_trees rfl rfl ?_ ?_
    · rintro label label' ⟨rfl⟩ ⟨rfl⟩
      rfl
    · rintro children children' ⟨⟩
  have halike : Alike labelledTree labelledTree none
      (.obj (oddTree (.num (.int 1)) .null "b"))
      (.obj (oddTree .null (.bool true) "c")) := by
    refine alike_trees rfl rfl ?_ ?_
    · rintro label label' ⟨rfl⟩ ⟨rfl⟩
      rfl
    · rintro children children' ⟨rfl⟩ ⟨rfl⟩
      refine .elements rfl rfl ?_
      intro index item item' hitem hitem'
      cases List.mem_singleton.1 (List.mem_of_getElem? hitem)
      cases List.mem_singleton.1 (List.mem_of_getElem? hitem')
      exact hleaf
  have hvalid : validate ⟨3, 9⟩ labelledTree
        (.obj (oddTree (.num (.int 1)) .null "b")) =
      .ok [⟨["label"], ["definitions", "tree", "properties", "label", "type"]⟩,
        ⟨["size"], ["definitions", "tree"]⟩] := by rfl
  exact ⟨halike, hvalid, (validate_of_alike halike ⟨3, 9⟩).symm.trans hvalid⟩

end SchemaForms
