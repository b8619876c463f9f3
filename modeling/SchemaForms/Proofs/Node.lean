import SchemaForms.Proofs.Findings
/-!
The nodes of a validation.  A node is a schema that meets a value at a place;
what it demands there are its parts, in the order in which a visit meets them:
violations at the node itself, refs to nothing, and further nodes.
`findings_eq_each` says that a visit to a node visits its parts one after the
other, and `findings_ref` what a ref adds to that.  Behind these two equations
no proof looks into the visitors again.
-/

namespace SchemaForms

/-- A schema that meets a value at a place; the tag is the member that a
discriminator has looked at already. -/
structure Node where
  place : Place
  schema : Schema
  value : Json
  tag : Option String

/-- What a visit to a node meets first. -/
inductive Part where
  /-- The value is not what the form demands at this place. -/
  | clash (place : Place)
  /-- No root definition has the name of the ref. -/
  | dangling (name : String)
  /-- Another node. -/
  | node (n : Node)

def Place.violation (place : Place) : Violation :=
  ⟨place.instancePath, place.schemaPath⟩

namespace Part

def ofItems (place : Place) (schema : Schema) (items : List Json) : List Part :=
  items.zipIdx.map fun (item, index) =>
    .node ⟨place.underInstance (Digits.text index), schema, item, none⟩

def ofMembers (place : Place) (schema : Schema) (members : KeyMap Json) :
    List Part :=
  members.toList.map fun (key, member) =>
    .node ⟨place.underInstance key, schema, member, none⟩

/-- The required members of an object, and a clash for each one that is
missing. -/
def ofRequired (place : Place) (required : KeyMap Schema)
    (members : KeyMap Json) : List Part :=
  required.toList.map fun (key, schema) =>
    match members.get? key with
    | some member =>
        .node ⟨(place.underSchema key).underInstance key, schema, member, none⟩
    | none => clash (place.underSchema key)

def ofOptional (place : Place) (optional : KeyMap Schema)
    (members : KeyMap Json) : List Part :=
  optional.toList.filterMap fun (key, schema) =>
    (members.get? key).map fun member =>
      .node ⟨(place.underSchema key).underInstance key, schema, member, none⟩

/-- A clash for each member that a properties form does not know. -/
def ofUndeclared (place : Place) (required optional : Option (KeyMap Schema))
    (tag : Option String) (members : KeyMap Json) : List Part :=
  (members.keys.filter fun key => !isDeclared required optional tag key).map
    fun key =>
      clash (place.underInstance key)

def ofProperties (place : Place) (required optional : Option (KeyMap Schema))
    (additional : Bool) (tag : Option String) (members : KeyMap Json) :
    List Part :=
  (match required with
    | some required =>
        ofRequired (place.underSchema Keyword.properties.name) required members
    | none => []) ++
  (match optional with
    | some optional =>
        ofOptional (place.underSchema Keyword.optionalProperties.name)
          optional members
    | none => []) ++
  if additional then [] else ofUndeclared place required optional tag members

def ofBranch (place : Place) (tag : String) (mapping : KeyMap Schema)
    (members : KeyMap Json) : Part :=
  match members.get? tag with
  | none => clash (place.underSchema Keyword.tag.name)
  | some (.str branch) =>
      match mapping.get? branch with
      | some schema =>
          .node ⟨(place.underSchema Keyword.mapping.name).underSchema branch,
            schema, .obj members, some tag⟩
      | none =>
          clash ((place.underSchema Keyword.mapping.name).underInstance tag)
  | some _ => clash ((place.underSchema Keyword.tag.name).underInstance tag)

/-- What a part does to the violations found so far, when `step` tells it for
nodes. -/
def findings (limits : Limits) (step : Node → Findings) : Part → Findings
  | clash place => .report limits place.violation
  | dangling name => .halt (.unresolvedRef name)
  | node n => step n

section

variable (limits : Limits) (step : Node → Findings)

@[simp] theorem findings_clash (place : Place) :
    (clash place).findings limits step = .report limits place.violation := rfl

@[simp] theorem findings_dangling (name : String) :
    (dangling name).findings limits step = .halt (.unresolvedRef name) := rfl

@[simp] theorem findings_node (n : Node) :
    (node n).findings limits step = step n := rfl

end

end Part

namespace Node

def start (schema : Schema) (value : Json) : Node :=
  ⟨.root, schema, value, none⟩

/-- What a node demands of its value, in the order of a visit.  The refs point
into `root`. -/
def parts (root : Schema) (n : Node) : List Part :=
  match n.schema.form, n.value with
  | .empty, _ => []
  | .ref name, value =>
      match root.definition? name with
      | some target => [.node ⟨n.place.atDefinition name, target, value, none⟩]
      | none => [.dangling name]
  | .type type, value =>
      if type.accepts value then []
      else [.clash (n.place.underSchema Keyword.type.name)]
  | .enum values, .str s =>
      if values.contains s then []
      else [.clash (n.place.underSchema Keyword.enum.name)]
  | .enum _, _ => [.clash (n.place.underSchema Keyword.enum.name)]
  | .elements schema, .arr items =>
      Part.ofItems (n.place.underSchema Keyword.elements.name) schema items
  | .elements _, _ => [.clash (n.place.underSchema Keyword.elements.name)]
  | .properties required optional additional, .obj members =>
      Part.ofProperties n.place required optional additional n.tag members
  | .properties required _ _, _ =>
      let keyword : Keyword := if required.isSome then .properties
        else .optionalProperties
      [.clash (n.place.underSchema keyword.name)]
  | .values schema, .obj members =>
      Part.ofMembers (n.place.underSchema Keyword.values.name) schema members
  | .values _, _ => [.clash (n.place.underSchema Keyword.values.name)]
  | .discriminator tag mapping, .obj members =>
      [Part.ofBranch (n.place.underSchema Keyword.discriminator.name) tag
        mapping members]
  | .discriminator _ _, _ =>
      [.clash (n.place.underSchema Keyword.discriminator.name)]

end Node

section

variable (limits : Limits) (follow : String → Json → Visit)

/-- What a schema finds at a node when refs are followed by `follow`. -/
def Node.seen (n : Node) : Findings :=
  Visit.findings (n.schema.visit limits follow n.value n.tag) n.place

theorem findings_visitRequired
    (hfollow : ∀ name value, (follow name value).Restores)
    (required : KeyMap Schema) (members : KeyMap Json) (place : Place) :
    (visitRequired limits (required.map (Schema.visit limits follow))
        members).findings place =
      Findings.each (Part.findings limits (Node.seen limits follow))
        (Part.ofRequired (place.underSchema Keyword.properties.name)
          required members) := by
  have hvisitors := mapped_visit_restores limits hfollow required
  rw [visitRequired, Visit.findings_underSchema, Visit.findings_each,
    Entries.toList_map, Part.ofRequired, Findings.each_map, Findings.each_map]
  · congr 1
    funext ⟨key, schema⟩
    cases hmember : members.get? key with
    | none => simp [visitRequiredMember, hmember, Place.violation]
    | some member => simp [visitRequiredMember, hmember, Node.seen]
  · intro entry hentry
    exact visitRequiredMember_restores limits (hvisitors entry hentry) members _

theorem findings_visitOptional
    (hfollow : ∀ name value, (follow name value).Restores)
    (optional : KeyMap Schema) (members : KeyMap Json) (place : Place) :
    (visitOptional (optional.map (Schema.visit limits follow)) members).findings
        place = Findings.each (Part.findings limits (Node.seen limits follow))
        (Part.ofOptional (place.underSchema Keyword.optionalProperties.name)
          optional members) := by
  have hvisitors := mapped_visit_restores limits hfollow optional
  rw [visitOptional, Visit.findings_underSchema, Visit.findings_each,
    Entries.toList_map, Part.ofOptional, Findings.each_map,
    Findings.each_filterMap]
  · congr 1
    funext ⟨key, schema⟩
    cases hmember : members.get? key with
    | none => simp [visitOptionalMember, hmember]
    | some member => simp [visitOptionalMember, hmember, Node.seen]
  · intro entry hentry
    exact visitOptionalMember_restores (hvisitors entry hentry) members _

theorem findings_visitUndeclared (required optional : Option (KeyMap Schema))
    (tag : Option String) (members : KeyMap Json) (place : Place) :
    (Visit.each (fun key => .underInstance key (.report limits))
        (members.keys.filter fun key =>
          !isDeclared required optional tag key)).findings place =
      Findings.each (Part.findings limits (Node.seen limits follow))
        (Part.ofUndeclared place required optional tag members) := by
  rw [Visit.findings_each, Part.ofUndeclared, Findings.each_map]
  · simp [Place.violation]
  · exact fun key _ =>
      Visit.underInstance_restores key (Visit.report_restores limits)

/-- Which members are declared does not depend on what the maps hold. -/
theorem isDeclared_map {α : Type} (f : Schema → α)
    (required optional : Option (KeyMap Schema)) (tag : Option String)
    (key : String) :
    isDeclared (required.map (Entries.map f))
        (optional.map (Entries.map f)) tag key =
      isDeclared required optional tag key := by
  cases required <;> cases optional <;> simp [isDeclared, Entries.contains]

theorem visitors?_eq_map (schemas : Option (KeyMap Schema)) :
    visitors? limits follow schemas =
      schemas.map (Entries.map (Schema.visit limits follow)) := by
  cases schemas with
  | none => rfl
  | some schemas => rw [visitors?, visitors_eq_map, Option.map_some]

theorem findings_visitMembers
    (hfollow : ∀ name value, (follow name value).Restores)
    (required optional : Option (KeyMap Schema)) (additional : Bool)
    (tag : Option String) (members : KeyMap Json) (place : Place) :
    (visitMembers limits (visitors? limits follow required)
      (visitors? limits follow optional)
        additional tag members).findings place =
      Findings.each (Part.findings limits (Node.seen limits follow))
        (Part.ofProperties place required optional additional tag members) := by
  have hdeclared :
      (fun key => !isDeclared
        (required.map (Entries.map (Schema.visit limits follow)))
      (optional.map (Entries.map (Schema.visit limits follow))) tag key) =
      fun key => !isDeclared required optional tag key := by
    funext key
    rw [isDeclared_map]
  unfold visitMembers Part.ofProperties
  rw [visitors?_eq_map, visitors?_eq_map, hdeclared, Findings.each_append,
    Findings.each_append, Findings.andThen_assoc, Visit.findings_andThen,
    Visit.findings_andThen]
  · congr 1
    · cases required with
      | none => rfl
      | some required =>
          exact findings_visitRequired limits follow hfollow
            required members place
    · congr 1
      · cases optional with
        | none => rfl
        | some optional =>
            exact findings_visitOptional limits follow hfollow
              optional members place
      · cases additional with
        | true => rfl
        | false =>
            exact findings_visitUndeclared limits follow required optional
              tag members place
  · cases optional with
    | none => exact Visit.skip_restores
    | some optional =>
        exact visitOptional_restores
          (mapped_visit_restores limits hfollow optional) members
  · cases required with
    | none => exact Visit.skip_restores
    | some required =>
        exact visitRequired_restores limits
          (mapped_visit_restores limits hfollow required) members

theorem findings_visitBranch (tag : String) (mapping : KeyMap Schema)
    (members : KeyMap Json) (place : Place) :
    (visitBranch limits tag (visitors limits follow mapping) members).findings
        place =
      (Part.ofBranch place tag mapping members).findings limits
        (Node.seen limits follow) := by
  rw [visitors_eq_map, visitBranch, Part.ofBranch]
  rcases members.get? tag with _ | value
  · simp [Place.violation]
  · cases value with
    | str branch =>
        rcases hbranch : mapping.get? branch with _ | schema
        · simp [hbranch, Place.violation]
        · simp [hbranch, Node.seen]
    | _ => simp [Place.violation]

theorem Findings.each_singleton {α : Type} (step : α → Findings) (item : α) :
    Findings.each step [item] = step item := by
  rw [Findings.each_cons, Findings.each_nil, Findings.andThen_skip]

theorem findings_clashIf (accepted : Bool) (place : Place) :
    Visit.findings (if accepted then .skip else .report limits) place =
      Findings.each (Part.findings limits (Node.seen limits follow))
        (if accepted then [] else [.clash place]) := by
  cases accepted with
  | true => rfl
  | false => simp [Place.violation]

/-- A visit to a node visits its parts one after the other, unless its form is a
ref. -/
theorem Node.seen_eq_each (hfollow : ∀ name value, (follow name value).Restores)
    (root : Schema) (n : Node) (hform : ∀ name, n.schema.form ≠ .ref name) :
    n.seen limits follow =
      Findings.each (Part.findings limits (Node.seen limits follow))
        (n.parts root) := by
  obtain ⟨place, ⟨definitions, form⟩, value, tag⟩ := n
  cases form with
  | empty => rfl
  | ref name => exact absurd rfl (hform name)
  | type type =>
      exact findings_clashIf limits follow (type.accepts value)
        (place.underSchema Keyword.type.name)
  | enum values =>
      cases value with
      | str s =>
          exact findings_clashIf limits follow (values.contains s)
            (place.underSchema Keyword.enum.name)
      | _ =>
          exact findings_clashIf limits follow false
            (place.underSchema Keyword.enum.name)
  | elements schema =>
      cases value with
      | arr items =>
          have hschema := Schema.visit_restores limits hfollow schema
          simp only [Node.seen, Schema.visit, Form.visit, Node.parts,
            Part.ofItems]
          rw [Visit.findings_underSchema, Visit.findings_each,
            Findings.each_map]
          · rfl
          · exact fun item _ =>
              Visit.underInstance_restores _ (hschema item.1 none)
      | _ =>
          exact findings_clashIf limits follow false
            (place.underSchema Keyword.elements.name)
  | properties required optional additional =>
      cases value with
      | obj members =>
          exact findings_visitMembers limits follow hfollow required optional
            additional tag members place
      | _ =>
          exact findings_clashIf limits follow false (place.underSchema
            (if required.isSome then Keyword.properties
              else .optionalProperties).name)
  | values schema =>
      cases value with
      | obj members =>
          have hschema := Schema.visit_restores limits hfollow schema
          simp only [Node.seen, Schema.visit, Form.visit, Node.parts,
            Part.ofMembers]
          rw [Visit.findings_underSchema, Visit.findings_each,
            Findings.each_map]
          · rfl
          · exact fun member _ =>
              Visit.underInstance_restores _ (hschema member.2 none)
      | _ =>
          exact findings_clashIf limits follow false
            (place.underSchema Keyword.values.name)
  | discriminator tag mapping =>
      cases value with
      | obj members =>
          simp only [Node.seen, Schema.visit, Form.visit, Node.parts]
          rw [Visit.findings_underSchema, findings_visitBranch,
            Findings.each_singleton]
      | _ =>
          exact findings_clashIf limits follow false
            (place.underSchema Keyword.discriminator.name)

end

namespace Node

/-- Whether a node is a ref inside as many refs as may be active. -/
def tooDeep (limits : Limits) (n : Node) : Bool :=
  match n.schema.form with
  | .ref _ => limits.depthReached n.place.depth
  | _ => false

/-- What a visit finds at a node when at most `allowance` refs may be nested in
it. -/
def findings (limits : Limits) (root : Schema) (allowance : Nat)
    (n : Node) : Findings :=
  Visit.findings (visitor limits root allowance n.schema n.value n.tag) n.place

variable {limits : Limits} {root : Schema} {allowance : Nat} {n : Node}

/-- Off the refs, the allowance is the same for a node and for its parts. -/
theorem findings_eq_each (hform : ∀ name, n.schema.form ≠ .ref name) :
    n.findings limits root allowance =
      Findings.each (Part.findings limits (Node.findings limits root allowance))
        (n.parts root) := by
  cases allowance with
  | zero =>
      apply n.seen_eq_each limits _ _ root hform
      exact visitRef_restores fun _ _ _ => Visit.halt_restores .endless
  | succ allowance =>
      apply n.seen_eq_each limits _ _ root hform
      exact visitRef_restores (visitor_restores limits root allowance)

theorem findings_of_tooDeep (hdeep : n.tooDeep limits = true) :
    n.findings limits root allowance = .halt .depthExceeded := by
  obtain ⟨place, ⟨definitions, form⟩, value, tag⟩ := n
  cases form with
  | ref name =>
      have hreached : limits.depthReached place.depth = true := hdeep
      funext found
      cases allowance <;>
        simp [findings, visitor, Schema.visit, Form.visit, visitRef,
          Visit.findings, hreached, Findings.halt]
  | _ => exact absurd hdeep (by simp [tooDeep])

/-- A ref takes one from the allowance. -/
theorem findings_ref {name : String} (hform : n.schema.form = .ref name)
    (hdeep : n.tooDeep limits = false) :
    n.findings limits root (allowance + 1) =
      Findings.each (Part.findings limits (Node.findings limits root allowance))
        (n.parts root) := by
  obtain ⟨place, ⟨definitions, form⟩, value, tag⟩ := n
  cases hform
  have hreached : limits.depthReached place.depth = false := hdeep
  funext found
  cases htarget : root.definition? name with
  | none =>
      simp [findings, visitor, Schema.visit, Form.visit, visitRef,
        Visit.findings, hreached, htarget, parts, Findings.halt]
  | some target =>
      simp [findings, visitor, Schema.visit, Form.visit, visitRef,
        Visit.findings, hreached, htarget, parts, Visit.within]

/-- With nothing left of the allowance, a ref is only looked up. -/
theorem findings_ref_zero {name : String} (hform : n.schema.form = .ref name)
    (hdeep : n.tooDeep limits = false) :
    n.findings limits root 0 =
      if (root.definition? name).isSome then .halt .endless
      else .halt (.unresolvedRef name) := by
  obtain ⟨place, ⟨definitions, form⟩, value, tag⟩ := n
  cases hform
  have hreached : limits.depthReached place.depth = false := hdeep
  funext found
  cases htarget : root.definition? name with
  | none =>
      simp [findings, visitor, Schema.visit, Form.visit, visitRef,
        Visit.findings, hreached, htarget, Findings.halt]
  | some target =>
      simp [findings, visitor, Schema.visit, Form.visit, visitRef,
        Visit.findings, hreached, htarget, Visit.within, Visit.halt,
        Findings.halt]

end Node

end SchemaForms
