import SchemaForms.Proofs.Visited
/-!
The order of a visit.  Among the parts of a node each one takes a turn, and the
turns say which one comes first: items by their index, members by their key, and
of a properties form the required members before the optional ones and those
before the unknown ones.  What a node meets is enumerated in this order in one
way only (`Enumerates.unique`), and its parts are enumerated so
(`enumerates_parts`).
-/

namespace SchemaForms

/-- The turn of a part among the parts of its node: the index of an item, the
key of a member, and the key of a required, an optional or an unknown member of
a properties form. -/
inductive Turn where
  | item (index : Nat)
  | member (key : String)
  | required (key : String)
  | optional (key : String)
  | undeclared (key : String)

/-- Turns of one kind follow each other by index or key.  Required members come
before optional ones, and both of them before the unknown ones. -/
inductive Turn.Before : Turn → Turn → Prop where
  | item {i j : Nat} (hlt : i < j) : Before (.item i) (.item j)
  | member {k l : String} (hlt : k < l) : Before (.member k) (.member l)
  | required {k l : String} (hlt : k < l) : Before (.required k) (.required l)
  | optional {k l : String} (hlt : k < l) : Before (.optional k) (.optional l)
  | undeclared {k l : String} (hlt : k < l) :
      Before (.undeclared k) (.undeclared l)
  | requiredOptional {k l : String} : Before (.required k) (.optional l)
  | requiredUndeclared {k l : String} : Before (.required k) (.undeclared l)
  | optionalUndeclared {k l : String} : Before (.optional k) (.undeclared l)

/-- The turn that a part of a node takes. -/
inductive Node.Takes (n : Node) : Part → Turn → Prop where
  | item {schema : Schema} {item : Json} {index : Nat} :
      Takes n (.node
        ⟨(n.place.underSchema Keyword.elements.name).underInstance
          (Digits.text index), schema, item,
          none⟩) (.item index)
  | member {schema : Schema} {member : Json} {key : String} :
      Takes n (.node
        ⟨(n.place.underSchema Keyword.values.name).underInstance key,
          schema, member, none⟩)
        (.member key)
  | missing {key : String} :
      Takes n (.clash ((n.place.underSchema Keyword.properties.name).underSchema
        key)) (.required key)
  | required {schema : Schema} {member : Json} {key : String} :
      Takes n (.node
        ⟨((n.place.underSchema Keyword.properties.name).underSchema
          key).underInstance key, schema,
          member, none⟩) (.required key)
  | optional {schema : Schema} {member : Json} {key : String} :
      Takes n (.node
        ⟨((n.place.underSchema Keyword.optionalProperties.name).underSchema
          key).underInstance key,
          schema, member, none⟩) (.optional key)
  | undeclared {key : String} :
      Takes n (.clash (n.place.underInstance key)) (.undeclared key)

/-- One part of a node comes before another one. -/
def Node.Before (n : Node) (part next : Part) : Prop :=
  ∃ turn later, n.Takes part turn ∧ n.Takes next later ∧ turn.Before later

/-- These are the parts that a node meets, each of them once, in the order of
their turns. -/
structure Node.Enumerates (root : Schema) (n : Node) (parts : List Part) :
    Prop where
  complete : ∀ part, part ∈ parts ↔ n.Meets root part
  ordered : parts.Pairwise n.Before

theorem Turn.Before.asymm {turn later : Turn} (hbefore : turn.Before later) :
    ¬ later.Before turn := by
  intro hbehind
  cases hbefore with
  | item hlt =>
      cases hbehind with
      | item hlt' => exact Nat.lt_asymm hlt hlt'
  | member hlt =>
      cases hbehind with
      | member hlt' => exact String.lt_asymm hlt hlt'
  | required hlt =>
      cases hbehind with
      | required hlt' => exact String.lt_asymm hlt hlt'
  | optional hlt =>
      cases hbehind with
      | optional hlt' => exact String.lt_asymm hlt hlt'
  | undeclared hlt =>
      cases hbehind with
      | undeclared hlt' => exact String.lt_asymm hlt hlt'
  | requiredOptional => cases hbehind
  | requiredUndeclared => cases hbehind
  | optionalUndeclared => cases hbehind

namespace Node

variable {root : Schema} {n : Node} {part next : Part} {parts : List Part}

/-- The place of a part tells its turn. -/
theorem Takes.unique {turn turn' : Turn} (htakes : n.Takes part turn)
    (htakes' : n.Takes part turn') :
    turn = turn' := by
  generalize heq : part = same at htakes'
  cases htakes <;> cases htakes' <;>
    simp_all [Place.underSchema, Place.underInstance, Keyword.name]
  exact Digits.text_injective heq.1

theorem Before.asymm (hbefore : n.Before part next) : ¬ n.Before next part := by
  obtain ⟨turn, later, hturn, hlater, hbefore⟩ := hbefore
  rintro ⟨later', turn', hlater', hturn', hbehind⟩
  rw [hturn'.unique hturn, hlater'.unique hlater] at hbehind
  exact hbefore.asymm hbehind

theorem Enumerates.nodup (henum : n.Enumerates root parts) : parts.Nodup := by
  apply henum.ordered.imp
  rintro part _ hbefore rfl
  exact hbefore.asymm hbefore

theorem Enumerates.unique {other : List Part} (henum : n.Enumerates root parts)
    (hother : n.Enumerates root other) : parts = other := by
  have hmem : ∀ part, part ∈ parts ↔ part ∈ other := fun part =>
    (henum.complete part).trans (hother.complete part).symm
  have hperm : parts.Perm other :=
    (List.perm_ext_iff_of_nodup henum.nodup hother.nodup).2 hmem
  exact hperm.eq_of_pairwise (fun part next _ _ hbefore hbehind =>
    absurd hbehind hbefore.asymm)
      henum.ordered hother.ordered

theorem ofItems_pairwise (schema : Schema) (items : List Json) :
    (Part.ofItems (n.place.underSchema Keyword.elements.name) schema
      items).Pairwise n.Before := by
  have hindices : items.zipIdx.Pairwise fun entry next => entry.2 < next.2 := by
    rw [← List.pairwise_map, List.zipIdx_map_snd]
    exact List.pairwise_lt_range'
  rw [Part.ofItems, List.pairwise_map]
  exact hindices.imp fun hlt => ⟨_, _, .item, .item, .item hlt⟩

theorem ofMembers_pairwise (schema : Schema) (members : KeyMap Json) :
    (Part.ofMembers (n.place.underSchema Keyword.values.name) schema
      members).Pairwise n.Before := by
  rw [Part.ofMembers, List.pairwise_map]
  exact members.toList_pairwise.imp fun hlt =>
    ⟨_, _, .member, .member, .member hlt⟩

/-- Members of one kind, in the order of their turns. -/
structure InOrder (n : Node) (kind : String → Turn) (parts : List Part) :
    Prop where
  ordered : parts.Pairwise n.Before
  takes : ∀ part ∈ parts, ∃ key, n.Takes part (kind key)

theorem InOrder.nil {kind : String → Turn} : n.InOrder kind [] :=
  ⟨.nil, by simp⟩

theorem ofRequired_inOrder (required : KeyMap Schema) (members : KeyMap Json) :
    n.InOrder .required
      (Part.ofRequired (n.place.underSchema Keyword.properties.name)
        required members) := by
  obtain ⟨part, hparts, htakes⟩ : ∃ part : String × Schema → Part,
      Part.ofRequired (n.place.underSchema Keyword.properties.name)
        required members = required.toList.map part ∧
        ∀ entry, n.Takes (part entry) (.required entry.1) := by
    refine ⟨_, rfl, ?_⟩
    rintro ⟨key, schema⟩
    cases hmember : members.get? key with
    | none =>
        simp only [hmember]
        exact .missing
    | some member =>
        simp only [hmember]
        exact .required
  rw [hparts]
  constructor
  · rw [List.pairwise_map]
    exact required.toList_pairwise.imp fun hlt =>
      ⟨_, _, htakes _, htakes _, .required hlt⟩
  · intro next hnext
    obtain ⟨entry, -, rfl⟩ := List.mem_map.1 hnext
    exact ⟨entry.1, htakes entry⟩

theorem ofOptional_inOrder (optional : KeyMap Schema) (members : KeyMap Json) :
    n.InOrder .optional
      (Part.ofOptional (n.place.underSchema Keyword.optionalProperties.name)
        optional members) := by
  constructor
  · apply List.Pairwise.filterMap _ _ optional.toList_pairwise
    intro entry next hlt part hpart later hlater
    obtain ⟨member, -, rfl⟩ := Option.map_eq_some_iff.1 hpart
    obtain ⟨member', -, rfl⟩ := Option.map_eq_some_iff.1 hlater
    exact ⟨_, _, .optional, .optional, .optional hlt⟩
  · intro part hpart
    obtain ⟨key, schema, member, -, -, rfl⟩ := Part.mem_ofOptional_iff.1 hpart
    exact ⟨key, .optional⟩

theorem ofUndeclared_inOrder (required optional : Option (KeyMap Schema))
    (tag : Option String) (members : KeyMap Json) :
    n.InOrder .undeclared
      (Part.ofUndeclared n.place required optional tag members) := by
  constructor
  · rw [Part.ofUndeclared, List.pairwise_map]
    refine List.Pairwise.filter _ ?_
    rw [Entries.keys, List.pairwise_map]
    exact members.toList_pairwise.imp fun hlt =>
      ⟨_, _, .undeclared, .undeclared, .undeclared hlt⟩
  · intro part hpart
    obtain ⟨key, -, -, rfl⟩ := Part.mem_ofUndeclared_iff.1 hpart
    exact ⟨key, .undeclared⟩

/-- The three kinds of members follow each other. -/
theorem append_pairwise {required optional undeclared : List Part}
    (hrequired : n.InOrder .required required)
    (hoptional : n.InOrder .optional optional)
    (hundeclared : n.InOrder .undeclared undeclared) :
    (required ++ optional ++ undeclared).Pairwise n.Before := by
  rw [List.pairwise_append, List.pairwise_append]
  refine ⟨⟨hrequired.ordered, hoptional.ordered, ?_⟩, hundeclared.ordered, ?_⟩
  · intro part hpart next hnext
    obtain ⟨key, htakes⟩ := hrequired.takes part hpart
    obtain ⟨key', htakes'⟩ := hoptional.takes next hnext
    exact ⟨_, _, htakes, htakes', .requiredOptional⟩
  · intro part hpart next hnext
    obtain ⟨key', htakes'⟩ := hundeclared.takes next hnext
    rcases List.mem_append.1 hpart with hpart | hpart
    · obtain ⟨key, htakes⟩ := hrequired.takes part hpart
      exact ⟨_, _, htakes, htakes', .requiredUndeclared⟩
    · obtain ⟨key, htakes⟩ := hoptional.takes part hpart
      exact ⟨_, _, htakes, htakes', .optionalUndeclared⟩

theorem ofProperties_pairwise (required optional : Option (KeyMap Schema))
    (additional : Bool) (tag : Option String) (members : KeyMap Json) :
    (Part.ofProperties n.place required optional additional tag
      members).Pairwise n.Before := by
  apply append_pairwise
  · cases required with
    | none => exact .nil
    | some required => exact ofRequired_inOrder required members
  · cases optional with
    | none => exact .nil
    | some optional => exact ofOptional_inOrder optional members
  · cases additional with
    | true => exact .nil
    | false => exact ofUndeclared_inOrder required optional tag members

theorem parts_pairwise (root : Schema) (n : Node) :
    (n.parts root).Pairwise n.Before := by
  obtain ⟨place, ⟨definitions, form⟩, value, tag⟩ := n
  cases form with
  | empty => exact .nil
  | ref name =>
      cases htarget : root.definition? name with
      | none => simp [parts, htarget]
      | some target => simp [parts, htarget]
  | type type => cases htype : type.accepts value <;> simp [parts, htype]
  | enum values =>
      cases value with
      | str s => cases hs : values.contains s <;> simp [parts, hs]
      | _ => simp [parts]
  | elements schema =>
      cases value with
      | arr items => exact ofItems_pairwise schema items
      | _ => simp [parts]
  | properties required optional additional =>
      cases value with
      | obj members =>
          exact ofProperties_pairwise required optional additional tag members
      | _ => simp [parts]
  | values schema =>
      cases value with
      | obj members => exact ofMembers_pairwise schema members
      | _ => simp [parts]
  | discriminator tag mapping =>
      cases value with
      | obj members => simp [parts]
      | _ => simp [parts]

/-- The parts of a node are what it meets, in order. -/
theorem enumerates_parts (root : Schema) (n : Node) :
    n.Enumerates root (n.parts root) :=
  ⟨fun _ => mem_parts_iff, parts_pairwise root n⟩

theorem Enumerates.eq_parts (henum : n.Enumerates root parts) :
    parts = n.parts root :=
  henum.unique (enumerates_parts root n)

end Node

end SchemaForms
