import SchemaForms.Proofs.Acceptance
import SchemaForms.Proofs.Relocation
import SchemaForms.Proofs.Frames
/-!
A discriminator and its branches.  Where the tag of an object names a branch, a
checked discriminator demands of the object what the branch demands of it
without the tag: the two validations go through the same parts
(`parts_ofBranch`), at places that differ by the path of the branch until a ref
is followed (`carries_inBranch`).  The tag is excused at the branch itself only
(`Node.LeadsTo.exists_discriminator`).
-/

namespace SchemaForms

/-- The path of what stands in a branch.  A path that starts at a definition
stays. -/
def SchemaPath.inBranch (branch : String) (path : SchemaPath) : SchemaPath :=
  if path.head? = some Keyword.definitions.name then path
  else [Keyword.discriminator.name, Keyword.mapping.name, branch] ++ path

def Place.inBranch (branch : String) (place : Place) : Place :=
  { place with schemaPath := SchemaPath.inBranch branch place.schemaPath }

/-- The violation of a branch, as one of the discriminator around it. -/
def Violation.inBranch (branch : String) (v : Violation) : Violation :=
  { v with schemaPath := SchemaPath.inBranch branch v.schemaPath }

/-- The place of what stands in a branch, whatever its path starts with. -/
def Place.underBranch (branch : String) (place : Place) : Place :=
  { place with
    schemaPath := [Keyword.discriminator.name, Keyword.mapping.name, branch] ++
      place.schemaPath }

theorem Place.compatible_underBranch (branch : String) :
    Place.Compatible (underBranch branch) :=
  ⟨fun _ _ => rfl, fun _ _ =>
    (congrArg (Place.mk _ · _) (List.append_assoc _ _ _).symm)⟩

variable {root : Schema} {n c : Node} {part : Part} {branch tag : String}

/-- The parts of a node go along with it into a branch. -/
theorem Node.parts_inBranch (root : Schema) (branch : String) (n : Node) :
    (n.relocate (Place.inBranch branch)).parts root =
      (n.parts root).map (Part.relocate (Place.inBranch branch)) := by
  have hid : Place.Compatible id := ⟨fun _ _ => rfl, fun _ _ => rfl⟩
  apply parts_relocate_of_frames (Place.compatible_underBranch branch) hid
  · intro place
    by_cases hstart : place.schemaPath.head? = some Keyword.definitions.name
    · simp [Place.inBranch, SchemaPath.inBranch, hstart]
    · simp [Place.inBranch, SchemaPath.inBranch, Place.underBranch, hstart]
  · intro name place
    rfl

/-- The schema of a branch, with the definitions of the root. -/
def Schema.withForm (root : Schema) (form : Form) : Schema :=
  ⟨root.definitions, form⟩

theorem carries_inBranch (root : Schema) (form : Form) (branch : String) :
    Carries root (root.withForm form) (Place.inBranch branch)
      (Violation.inBranch branch) :=
  ⟨Node.parts_inBranch root branch, fun _ => rfl, fun _ => rfl⟩

section

variable {required optional : Option (KeyMap Schema)} {additional : Bool}
  {members : KeyMap Json} {place : Place}

theorem get?_erase_of_ne {key : String} (hne : key ≠ tag) :
    (members.erase tag).get? key = members.get? key := by
  rw [Entries.get?_erase, if_neg hne]

theorem ne_of_mem_toList {schemas : KeyMap Schema}
    (htag : schemas.contains tag = false) {entry : String × Schema}
    (hentry : entry ∈ schemas.toList) : entry.1 ≠ tag := by
  rintro rfl
  have hcontains :=
    Entries.contains_iff.2 ⟨entry.2, Entries.get?_eq_some_iff.2 hentry⟩
  cases htag.symm.trans hcontains

theorem ofRequired_erase {schemas : KeyMap Schema}
    (htag : schemas.contains tag = false) :
    Part.ofRequired place schemas (members.erase tag) =
      Part.ofRequired place schemas members := by
  apply List.map_congr_left
  intro entry hentry
  simp only [get?_erase_of_ne (ne_of_mem_toList htag hentry)]

theorem ofOptional_erase {schemas : KeyMap Schema}
    (htag : schemas.contains tag = false) :
    Part.ofOptional place schemas (members.erase tag) =
      Part.ofOptional place schemas members := by
  apply List.filterMap_congr
  intro entry hentry
  simp only [get?_erase_of_ne (ne_of_mem_toList htag hentry)]

/-- The members that are not declared are the same, as the tag counts as
declared. -/
theorem ofUndeclared_erase :
    Part.ofUndeclared place required optional none (members.erase tag) =
      Part.ofUndeclared place required optional (some tag) members := by
  unfold Part.ofUndeclared
  rw [Entries.keys_erase, List.filter_filter]
  congr 2
  funext key
  by_cases hkey : key = tag
  · simp [isDeclared, hkey]
  · simp [isDeclared, hkey, Ne.symm hkey]

/-- A properties form demands of an object with a tag what it demands of the
object without it. -/
theorem ofProperties_erase (hrequired : declares required tag = false)
    (hoptional : declares optional tag = false) :
    Part.ofProperties place required optional additional none
        (members.erase tag) =
      Part.ofProperties place required optional additional
        (some tag) members := by
  unfold Part.ofProperties
  congr 1
  · congr 1
    · cases required with
      | none => rfl
      | some required => exact ofRequired_erase hrequired
    · cases optional with
      | none => rfl
      | some optional => exact ofOptional_erase hoptional
  · cases additional with
    | true => rfl
    | false => exact ofUndeclared_erase

end

section

variable {value : Json} {name : String} {mapping : KeyMap Schema}
  {members : KeyMap Json} {s : Schema}

def Node.ofBranch (tag name : String) (s : Schema) (value : Json) : Node :=
  ⟨Place.inBranch name .root, s, value, some tag⟩

theorem parts_start (hform : root.form = .discriminator tag mapping)
    (htag : members.get? tag = some (.str name))
    (hbranch : mapping.get? name = some s) :
    (Node.start root (.obj members)).parts root =
      [.node (.ofBranch tag name s (.obj members))] :=
  Node.parts_branch hform rfl htag hbranch

/-- A branch meets in an object what it meets, taken as the root, in the object
without the tag. -/
theorem parts_ofBranch (hchecked : root.issues = [])
    (hform : root.form = .discriminator tag mapping)
    (hbranch : mapping.get? name = some s) :
    (Node.ofBranch tag name s (.obj members)).parts root =
      ((Node.start (root.withForm s.form) (.obj (members.erase tag))).relocate
        (Place.inBranch name)).parts root := by
  obtain ⟨required, optional, additional, hproperties, hrequired, hoptional⟩ :=
    (Schema.Walked.start root).exists_properties hchecked hform hbranch
  obtain ⟨definitions, form⟩ := s
  cases hproperties
  exact (ofProperties_erase hrequired hoptional).symm

theorem reaches_branch (hchecked : root.issues = [])
    (hform : root.form = .discriminator tag mapping)
    (htag : members.get? tag = some (.str name))
    (hbranch : mapping.get? name = some s) (limits : Limits) :
    ∃ a, Agenda.Reaches limits root (.start root (.obj members))
        (a.relocate (Place.inBranch name) (Violation.inBranch name)) ∧
      Agenda.Reaches limits (root.withForm s.form)
        (.start (root.withForm s.form) (.obj (members.erase tag))) a := by
  obtain ⟨required, optional, additional, hproperties, -⟩ :=
    (Schema.Walked.start root).exists_properties hchecked hform hbranch
  have hcarries := carries_inBranch root s.form name
  have hstart : (Node.start root (.obj members)).tooDeep limits = false := by
    simp [Node.tooDeep, Node.start, hform]
  have hinner : (Node.ofBranch tag name s (.obj members)).tooDeep limits =
      false := by
    simp [Node.tooDeep, Node.ofBranch, hproperties]
  have halone : (Node.start (root.withForm s.form)
        (.obj (members.erase tag))).tooDeep limits =
      false := by
    simp [Node.tooDeep, Node.start, Schema.withForm, hproperties]
  refine ⟨_, .head (.enter hstart) (.single ?_), .single (.enter halone)⟩
  rw [parts_start hform htag hbranch]
  have hstep : Agenda.Step limits root
      ⟨[.node (.ofBranch tag name s (.obj members))], []⟩
      ⟨(Node.ofBranch tag name s (.obj members)).parts root ++ [], []⟩ :=
        .enter hinner
  rw [parts_ofBranch hchecked hform hbranch, hcarries.parts] at hstep
  simpa [Agenda.relocate] using hstep

/-- A visited node with a tag is a branch of a discriminator that is visited. -/
theorem Node.LeadsTo.exists_discriminator {start : Node}
    (hleads : start.LeadsTo root n) (hstart : start.tag = none)
    (htag : n.tag = some tag) :
    ∃ m mapping, start.LeadsTo root m ∧
      m.schema.form = .discriminator tag mapping ∧
      m.Meets root (.node n) := by
  rcases Relation.ReflTransGen.cases_tail hleads with rfl | ⟨m, hbefore, hmeets⟩
  · cases hstart.symm.trans htag
  · cases hmeets with
    | branch hform hvalue hmember hbranch =>
        cases htag
        exact ⟨m, _, hbefore, hform, .branch hform hvalue hmember hbranch⟩
    | _ => cases htag

/-- Off the branches of a discriminator with the tag, the tag is a member like
others. -/
theorem mem_of_undeclared {start : Node}
    {required optional : Option (KeyMap Schema)} (hleads : start.LeadsTo root n)
    (hform : n.schema.form = .properties required optional false)
    (hvalue : n.value = .obj members) (hmember : members.contains tag = true)
    (hrequired : declares required tag = false)
    (hoptional : declares optional tag = false) (htag : n.tag ≠ some tag) :
    start.Clashes root ⟨n.place.instancePath ++ [tag], n.place.schemaPath⟩ := by
  have hdeclared : isDeclared required optional n.tag tag = false := by
    apply Bool.eq_false_of_not_eq_true
    rw [isDeclared_eq_true_iff, hrequired, hoptional]
    simpa using htag
  exact ⟨n, _, hleads, .undeclared hform hvalue hmember hdeclared, rfl⟩

theorem not_has_erase {path : List String} {part : Json} :
    ¬ (Json.obj (members.erase tag)).Has (tag :: path) part := by
  intro hhas
  cases hhas with
  | member hmember _ =>
      rw [Entries.get?_erase, if_pos rfl] at hmember
      cases hmember

/-- No node is visited in the value of the tag. -/
theorem instancePath_ne_tag (hchecked : root.issues = [])
    (hform : root.form = .discriminator tag mapping)
    (htag : members.get? tag = some (.str name))
    (hbranch : mapping.get? name = some s)
    (hleads : (Node.start root (.obj members)).LeadsTo root n)
    (rest : List String) :
    n.place.instancePath ≠ tag :: rest := by
  rcases Relation.ReflTransGen.cases_head hleads with rfl | ⟨m, hfirst, hleads⟩
  · exact (List.cons_ne_nil _ _).symm
  · have hpart := Node.mem_parts_iff.2 hfirst
    rw [parts_start hform htag hbranch, List.mem_singleton] at hpart
    cases hpart
    rcases Relation.ReflTransGen.cases_head hleads with
      rfl | ⟨c, hsecond, hleads⟩
    · exact (List.cons_ne_nil _ _).symm
    · have hpart := Node.mem_parts_iff.2 hsecond
      rw [parts_ofBranch hchecked hform hbranch] at hpart
      have hmoved :=
        Relation.ReflTransGen.head (Node.mem_parts_iff.1 hpart) hleads
      obtain ⟨d, hinner, rfl⟩ :=
        (carries_inBranch root s.form name).exists_leadsTo hmoved
      intro hpath
      have hhas := Node.LeadsTo.has hinner Json.Has.self
      rw [show d.place.instancePath = tag :: rest from hpath] at hhas
      exact not_has_erase hhas

/-- A checked discriminator finds in an object whose tag names a branch what
this branch, taken as the root, finds in the object without the tag, at the
places in the branch.  The value of the tag is neither visited nor reported.  A
form that lets no other members in reports a member with the name of the tag
wherever it does not declare it, unless it is itself a branch of a discriminator
with this tag. -/
theorem validate_discriminator (hchecked : root.check = .ok ())
    (hform : root.form = .discriminator tag mapping)
    (htag : members.get? tag = some (.str name))
    (hbranch : mapping.get? name = some s) (limits : Limits) :
    validate limits root (.obj members) =
        (validate limits (root.withForm s.form) (.obj (members.erase tag))).map
          (List.map (Violation.inBranch name)) ∧
      (∀ n, (Node.start root (.obj members)).LeadsTo root n →
        ∀ rest, n.place.instancePath ≠ tag :: rest) ∧
      (∀ found, validate limits root (.obj members) = .ok found →
        ∀ v ∈ found, ∀ rest, v.instancePath ≠ tag :: rest) ∧
      ∀ n required optional inner,
        (Node.start root (.obj members)).LeadsTo root n →
        n.schema.form = .properties required optional false →
        n.value = .obj inner →
        inner.contains tag = true → declares required tag = false →
        declares optional tag = false →
        (∃ m mapping, (Node.start root (.obj members)).LeadsTo root m ∧
          m.schema.form = .discriminator tag mapping ∧ m.Meets root (.node n)) ∨
        ∀ depth found, validate ⟨depth, 0⟩ root (.obj members) = .ok found →
          ⟨n.place.instancePath ++ [tag], n.place.schemaPath⟩ ∈ found := by
  rw [Schema.check_eq_ok_iff] at hchecked
  obtain ⟨a, hreach, hreach'⟩ :=
    reaches_branch hchecked hform htag hbranch limits
  have hsame := (carries_inBranch root s.form name).validate_eq hreach hreach'
  refine ⟨hsame, fun n => instancePath_ne_tag hchecked hform htag hbranch, ?_,
    ?_⟩
  · intro found hvalid v hv rest hpath
    rw [hsame] at hvalid
    obtain ⟨found', hvalid', rfl⟩ := map_eq_ok_iff.1 hvalid
    obtain ⟨w, hw, rfl⟩ := List.mem_map.1 hv
    obtain ⟨⟨part, hpart⟩, -⟩ := validate_locations hvalid' w hw
    rw [show w.instancePath = tag :: rest from hpath] at hpart
    exact not_has_erase hpart
  · intro n required optional inner hleads hproperties hvalue hmember
      hrequired hoptional
    by_cases hexempt : n.tag = some tag
    · exact .inl (hleads.exists_discriminator rfl hexempt)
    · refine .inr fun depth found hvalid => ?_
      rw [(listing_of_validate hvalid).mem_iff]
      exact ⟨_, List.mem_singleton_self _,
        mem_of_undeclared hleads hproperties hvalue hmember hrequired
          hoptional hexempt⟩

/-- The members of a box: a lid, which is a part with a label and nothing else,
and a size. -/
def boxForm : Form :=
  .properties (some (KeyMap.ofList [("lid", .ofForm (.ref "part")),
    ("size", .ofForm (.type .uint8))]))
    none false

/-- Things by their kind, of which there is one. -/
def boxes : Schema :=
  ⟨some (KeyMap.ofList [("part", .ofForm (.properties
      (some (KeyMap.ofList [("label", .ofForm (.type .string))]))
        none false))]),
    .discriminator "kind" (KeyMap.ofList [("box", .ofForm boxForm)])⟩

/-- A box without a size, whose lid has a kind too. -/
def oddBox : KeyMap Json :=
  KeyMap.ofList [("kind", .str "box"),
    ("lid", .object [("kind", .str "box"), ("label", .null)]), ("note", .null)]

/-- The kind of the lid is reported, and that of the box is not. -/
theorem validate_discriminator_oddBox :
    validate ⟨1, 9⟩ (boxes.withForm boxForm) (.obj (oddBox.erase "kind")) =
        .ok [⟨["lid", "label"],
          ["definitions", "part", "properties", "label", "type"]⟩,
          ⟨["lid", "kind"], ["definitions", "part"]⟩,
          ⟨[], ["properties", "size"]⟩,
          ⟨["note"], []⟩] ∧
      validate ⟨1, 9⟩ boxes (.obj oddBox) =
        .ok [⟨["lid", "label"],
          ["definitions", "part", "properties", "label", "type"]⟩,
          ⟨["lid", "kind"], ["definitions", "part"]⟩,
          ⟨[], ["discriminator", "mapping", "box", "properties", "size"]⟩,
          ⟨["note"], ["discriminator", "mapping", "box"]⟩] ∧
      ∀ n, (Node.start boxes (.obj oddBox)).LeadsTo boxes n →
        ∀ rest, n.place.instancePath ≠ "kind" :: rest := by
  have hchecked : boxes.check = .ok () := by decide +kernel
  have halone : validate ⟨1, 9⟩ (boxes.withForm boxForm)
        (.obj (oddBox.erase "kind")) =
      .ok [⟨["lid", "label"],
        ["definitions", "part", "properties", "label", "type"]⟩,
        ⟨["lid", "kind"], ["definitions", "part"]⟩,
        ⟨[], ["properties", "size"]⟩,
        ⟨["note"], []⟩] := by decide +kernel
  have hform : boxes.form =
      .discriminator "kind" (KeyMap.ofList [("box", .ofForm boxForm)]) := rfl
  have htag : oddBox.get? "kind" = some (.str "box") := rfl
  have hbranch : (KeyMap.ofList [("box", Schema.ofForm boxForm)]).get? "box" =
      some (.ofForm boxForm) := rfl
  obtain ⟨hsame, hvisited, -⟩ :=
    validate_discriminator hchecked hform htag hbranch ⟨1, 9⟩
  refine ⟨halone, ?_, hvisited⟩
  exact hsame.trans
    (congrArg (Except.map (List.map (Violation.inBranch "box"))) halone)

end

end SchemaForms
