import SchemaForms.Schema.Basic
import SchemaForms.Validation.Visit
/-!
Validation of instances.  A schema visits an instance member by member, in key
order, and finds a violation wherever the instance is not what its form demands.
Behind a ref the visit goes on in the root definition of that name, and the
place in the schema starts anew there.

Refs are the only way in which a visit can go on without coming closer to the
end of the schema or of the instance.  How many of them may be nested is given
by an allowance: the limit, if there is one, and otherwise as many as can be
active before one definition is entered twice with the same part of the
instance.
-/

namespace SchemaForms

/-- How a schema visits a value; the tag is the member that a discriminator has
looked at already. -/
abbrev Visitor := Json → Option String → Visit

/-- Whether a properties form knows a member, be it by the tag of the
discriminator around it. -/
def isDeclared {α β : Type} (required : Option (KeyMap α))
    (optional : Option (KeyMap β)) (tag : Option String)
    (key : String) : Bool :=
  required.any (·.contains key) || optional.any (·.contains key) ||
    tag == some key

def visitRequiredMember (limits : Limits) (members : KeyMap Json) (key : String)
    (visitor : Visitor) : Visit :=
  .underSchema key <|
    match members.get? key with
    | some value => .underInstance key (visitor value none)
    | none => .report limits

def visitRequired (limits : Limits) (visitors : KeyMap Visitor)
    (members : KeyMap Json) : Visit :=
  .underSchema Keyword.properties.name <|
    Visit.each
      (fun (key, visitor) => visitRequiredMember limits members key visitor)
      visitors.toList

def visitOptionalMember (members : KeyMap Json) (key : String)
    (visitor : Visitor) : Visit :=
  match members.get? key with
  | some value => .underSchema key (.underInstance key (visitor value none))
  | none => .skip

def visitOptional (visitors : KeyMap Visitor) (members : KeyMap Json) : Visit :=
  .underSchema Keyword.optionalProperties.name <|
    Visit.each (fun (key, visitor) => visitOptionalMember members key visitor)
      visitors.toList

def visitMembers (limits : Limits) (required optional : Option (KeyMap Visitor))
    (additional : Bool) (tag : Option String) (members : KeyMap Json) : Visit :=
  (match required with
    | some visitors => visitRequired limits visitors members
    | none => .skip).andThen <|
  (match optional with
    | some visitors => visitOptional visitors members
    | none => .skip).andThen <|
  if additional then .skip
  else
    Visit.each (fun key => .underInstance key (.report limits)) <|
      members.keys.filter fun key => !isDeclared required optional tag key

/-- A visit to an object by the branch that its tag selects. -/
def visitBranch (limits : Limits) (tag : String) (branches : KeyMap Visitor)
    (members : KeyMap Json) : Visit :=
  match members.get? tag with
  | none => .underSchema Keyword.tag.name (.report limits)
  | some (.str branch) =>
      .underSchema Keyword.mapping.name <|
        match branches.get? branch with
        | some visitor =>
            .underSchema branch (visitor (.obj members) (some tag))
        | none => .underInstance tag (.report limits)
  | some _ =>
      .underSchema Keyword.tag.name (.underInstance tag (.report limits))

mutual

/-- The visitor of a schema, where `follow` visits by the definition that a ref
names. -/
def Schema.visit (limits : Limits) (follow : String → Json → Visit) :
    Schema → Json → Option String → Visit
  | ⟨_, form⟩, value, tag => form.visit limits follow value tag

def Form.visit (limits : Limits) (follow : String → Json → Visit) :
    Form → Json → Option String → Visit
  | .empty, _, _ => .skip
  | .ref name, value, _ => follow name value
  | .type type, value, _ =>
      .underSchema Keyword.type.name (if type.accepts value then .skip
        else .report limits)
  | .enum values, value, _ =>
      .underSchema Keyword.enum.name <|
        match value with
        | .str s => if values.contains s then .skip else .report limits
        | _ => .report limits
  | .elements schema, value, _ =>
      .underSchema Keyword.elements.name <|
        match value with
        | .arr items =>
            Visit.each
              (fun (item, index) => .underInstance (Digits.text index)
                (schema.visit limits follow item none))
              items.zipIdx
        | _ => .report limits
  | .properties required optional additional, value, tag =>
      match value with
      | .obj members =>
          visitMembers limits (visitors? limits follow required)
            (visitors? limits follow optional) additional tag members
      | _ =>
          let keyword : Keyword := if required.isSome then .properties
            else .optionalProperties
          .underSchema keyword.name (.report limits)
  | .values schema, value, _ =>
      .underSchema Keyword.values.name <|
        match value with
        | .obj members =>
            Visit.each
              (fun (key, member) => .underInstance key
                (schema.visit limits follow member none))
              members.toList
        | _ => .report limits
  | .discriminator tag mapping, value, _ =>
      .underSchema Keyword.discriminator.name <|
        match value with
        | .obj members =>
            visitBranch limits tag (visitors limits follow mapping) members
        | _ => .report limits

def visitors? (limits : Limits) (follow : String → Json → Visit) :
    Option (Entries Schema none) → Option (Entries Visitor none)
  | none => none
  | some schemas => some (visitors limits follow schemas)

def visitors (limits : Limits) (follow : String → Json → Visit)
    {lo : Option String} : Entries Schema lo → Entries Visitor lo
  | .nil => .nil
  | .cons key above schema rest =>
      .cons key above (fun value tag => schema.visit limits follow value tag)
        (visitors limits follow rest)

end

/-- A map of schemas visits schema by schema. -/
theorem visitors_eq_map (limits : Limits) (follow : String → Json → Visit)
    {lo : Option String} (schemas : Entries Schema lo) :
    visitors limits follow schemas =
      schemas.map (Schema.visit limits follow) := by
  induction schemas with
  | nil => rfl
  | cons key above schema rest ih => rw [visitors, Entries.map, ih]

/-- A visit by the definition that a ref names, which `enter` makes a
visitor. -/
def visitRef (limits : Limits) (root : Schema) (enter : Schema → Visitor)
    (name : String) (value : Json) : Visit := fun walk =>
  if limits.depthReached walk.place.depth then (walk, some .depthExceeded)
  else
    match root.definition? name with
    | some target =>
        Visit.within (Place.atDefinition name)
          (Place.outsideRef walk.place.schemaPath)
          (enter target value none) walk
    | none => (walk, some (.unresolvedRef name))

/-- The visitor of a schema below a root, when at most `allowance` refs may be
nested in it. -/
def visitor (limits : Limits) (root : Schema) :
    (allowance : Nat) → Schema → Visitor
  | 0, schema, value, tag =>
      schema.visit limits (visitRef limits root fun _ _ _ => .halt .endless)
        value tag
  | allowance + 1, schema, value, tag =>
      schema.visit limits
        (visitRef limits root fun target value tag =>
          visitor limits root allowance target value tag)
        value tag

/-- How many refs can be nested.  A part of an instance of height `h` is inside
at most `h` others, and each of them is entered by every definition once before
a definition comes again. -/
def allowance (limits : Limits) (root : Schema) (value : Json) : Nat :=
  if limits.maxDepth = 0 then
    (root.definitions.getD .nil).size * (value.height + 1)
  else limits.maxDepth

/-- Why a validation has no result. -/
inductive ValidationFailure where
  /-- More refs were nested than the limit allows. -/
  | maxDepthExceeded (limit : Nat)
  /-- A ref names no root definition. -/
  | unresolvedRef (name : String)
  /-- Without a limit, the refs lead in a circle for ever. -/
  | endless
deriving DecidableEq

namespace ValidationFailure

def message : ValidationFailure → String
  | maxDepthExceeded limit =>
      "max depth exceeded: more than " ++ Digits.text limit ++ " nested ref(s)"
  | unresolvedRef name => "unresolved ref: no definition named '" ++ name ++ "'"
  | endless => "endless ref: the definitions refer to each other in a circle"

end ValidationFailure

/-- The violations of an instance, in the order in which the schema finds
them. -/
def validate (limits : Limits) (schema : Schema) (value : Json) :
    Except ValidationFailure (List Violation) :=
  match visitor limits schema (allowance limits schema value) schema value none
    ⟨.root, #[]⟩ with
  | (walk, none) | (walk, some .errorLimit) => .ok walk.found.toList
  | (_, some .depthExceeded) => .error (.maxDepthExceeded limits.maxDepth)
  | (_, some (.unresolvedRef name)) => .error (.unresolvedRef name)
  | (_, some .endless) => .error .endless

end SchemaForms
