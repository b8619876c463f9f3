import SchemaForms.Validation.Validate
/-!
Visits are back at their place.  A visit moves away from its place and back
again many times, and none of the moves back knows where the visit started.
That each of them answers one move away, however the visit between them ends,
is an invariant of all visits by schemas (`visitor_restores`).
-/

namespace SchemaForms

namespace Visit

variable {α : Type}

/-- A visit is back at its place when it ends, be it by a halt. -/
def Restores (visit : Visit) : Prop :=
  ∀ walk, (visit walk).1.place = walk.place

theorem skip_restores : skip.Restores := fun _ => rfl

theorem halt_restores (reason : Halt) : (halt reason).Restores := fun _ => rfl

theorem report_restores (limits : Limits) : (report limits).Restores :=
  fun _ => rfl

theorem andThen_restores {first next : Visit} (hfirst : first.Restores)
    (hnext : next.Restores) : (first.andThen next).Restores := by
  intro walk
  have hplace := hfirst walk
  rcases hrun : first walk with ⟨between, _ | reason⟩
  · rw [hrun] at hplace
    rw [andThen, hrun]
    exact (hnext between).trans hplace
  · rw [hrun] at hplace
    rw [andThen, hrun]
    exact hplace

theorem each_restores {visit : α → Visit} {items : List α}
    (hvisit : ∀ item ∈ items, (visit item).Restores) :
    (each visit items).Restores := by
  induction items with
  | nil => exact skip_restores
  | cons item rest ih =>
      apply andThen_restores (hvisit item List.mem_cons_self)
      exact ih fun other hother => hvisit other (List.mem_cons_of_mem _ hother)

/-- A visit between a move away and the move back is back at its place, if it
leaves alone the place that it was given. -/
theorem place_within {enter leave : Place → Place} {visit : Visit}
    (hvisit : visit.Restores) (walk : Walk) :
    (within enter leave visit walk).1.place = leave (enter walk.place) :=
  congrArg leave (hvisit ⟨enter walk.place, walk.found⟩)

theorem underInstance_restores {visit : Visit} (token : String)
    (hvisit : visit.Restores) : (underInstance token visit).Restores := by
  intro walk
  rw [underInstance, place_within hvisit, Place.aboveInstance_underInstance]

theorem underSchema_restores {visit : Visit} (token : String)
    (hvisit : visit.Restores) : (underSchema token visit).Restores := by
  intro walk
  rw [underSchema, place_within hvisit, Place.aboveSchema_underSchema]

end Visit

/-- A visitor is back at its place, whatever it visits. -/
def Visitor.Restores (visitor : Visitor) : Prop :=
  ∀ value tag, Visit.Restores (visitor value tag)

open Visit (skip_restores report_restores each_restores)
open Visit (underInstance_restores underSchema_restores)

section

variable (limits : Limits)

theorem visitRequiredMember_restores {visitor : Visitor}
    (hvisitor : visitor.Restores) (members : KeyMap Json) (key : String) :
    (visitRequiredMember limits members key visitor).Restores := by
  apply underSchema_restores
  cases members.get? key with
  | none => exact report_restores limits
  | some value => exact underInstance_restores key (hvisitor value none)

theorem visitRequired_restores {visitors : KeyMap Visitor}
    (hvisitors : ∀ entry ∈ visitors.toList, Visitor.Restores entry.2)
    (members : KeyMap Json) :
    (visitRequired limits visitors members).Restores := by
  apply underSchema_restores
  apply each_restores
  intro entry hentry
  exact visitRequiredMember_restores limits (hvisitors entry hentry) members _

theorem visitOptionalMember_restores {visitor : Visitor}
    (hvisitor : visitor.Restores) (members : KeyMap Json) (key : String) :
    (visitOptionalMember members key visitor).Restores := by
  rw [visitOptionalMember]
  cases members.get? key with
  | none => exact skip_restores
  | some value =>
      apply underSchema_restores
      exact underInstance_restores key (hvisitor value none)

theorem visitOptional_restores {visitors : KeyMap Visitor}
    (hvisitors : ∀ entry ∈ visitors.toList, Visitor.Restores entry.2)
    (members : KeyMap Json) : (visitOptional visitors members).Restores := by
  apply underSchema_restores
  apply each_restores
  intro entry hentry
  exact visitOptionalMember_restores (hvisitors entry hentry) members _

theorem visitMembers_restores {required optional : Option (KeyMap Visitor)}
    (hrequired : ∀ visitors, required = some visitors →
      ∀ entry ∈ visitors.toList, Visitor.Restores entry.2)
    (hoptional : ∀ visitors, optional = some visitors →
      ∀ entry ∈ visitors.toList, Visitor.Restores entry.2)
    (additional : Bool) (tag : Option String) (members : KeyMap Json) :
    (visitMembers limits required optional additional tag
      members).Restores := by
  apply Visit.andThen_restores
  · cases required with
    | none => exact skip_restores
    | some visitors =>
        exact visitRequired_restores limits (hrequired visitors rfl) members
  · apply Visit.andThen_restores
    · cases optional with
      | none => exact skip_restores
      | some visitors =>
          exact visitOptional_restores (hoptional visitors rfl) members
    · cases additional with
      | true => exact skip_restores
      | false =>
          apply each_restores
          exact fun key _ => underInstance_restores key (report_restores limits)

theorem visitBranch_restores {branches : KeyMap Visitor}
    (hbranches : ∀ entry ∈ branches.toList, Visitor.Restores entry.2)
    (tag : String) (members : KeyMap Json) :
    (visitBranch limits tag branches members).Restores := by
  rw [visitBranch]
  split
  · exact underSchema_restores _ (report_restores limits)
  · apply underSchema_restores
    split
    · next branch visitor hbranch =>
        have hentry := Entries.get?_eq_some_iff.mp hbranch
        exact underSchema_restores _ (hbranches _ hentry _ _)
    · exact underInstance_restores _ (report_restores limits)
  · apply underSchema_restores
    exact underInstance_restores _ (report_restores limits)

variable {follow : String → Json → Visit}

-- One case for each form: every move of a form has its move back.
mutual

theorem Schema.visit_restores
    (hfollow : ∀ name value, (follow name value).Restores) :
    ∀ (schema : Schema), Visitor.Restores (schema.visit limits follow)
  | ⟨_, form⟩ => Form.visit_restores hfollow form

theorem Form.visit_restores
    (hfollow : ∀ name value, (follow name value).Restores) :
    ∀ (form : Form), Visitor.Restores (form.visit limits follow)
  | .empty => fun _ _ => skip_restores
  | .ref name => fun value _ => hfollow name value
  | .type type => by
      intro value tag
      apply underSchema_restores
      cases type.accepts value with
      | true => exact skip_restores
      | false => exact report_restores limits
  | .enum values => by
      intro value tag
      apply underSchema_restores
      cases value with
      | str s =>
          dsimp only
          cases values.contains s with
          | true => exact skip_restores
          | false => exact report_restores limits
      | _ => exact report_restores limits
  | .elements schema => by
      have hschema := Schema.visit_restores hfollow schema
      intro value tag
      apply underSchema_restores
      cases value with
      | arr items =>
          apply each_restores
          exact fun item _ => underInstance_restores _ (hschema item.1 none)
      | _ => exact report_restores limits
  | .properties required optional additional => by
      have hrequired := visitors?_restore hfollow required
      have hoptional := visitors?_restore hfollow optional
      intro value tag
      cases value with
      | obj members =>
          exact visitMembers_restores limits hrequired hoptional _ tag members
      | _ => exact underSchema_restores _ (report_restores limits)
  | .values schema => by
      have hschema := Schema.visit_restores hfollow schema
      intro value tag
      apply underSchema_restores
      cases value with
      | obj members =>
          apply each_restores
          exact fun member _ => underInstance_restores _ (hschema member.2 none)
      | _ => exact report_restores limits
  | .discriminator tag mapping => by
      have hmapping := visitors_restore hfollow mapping
      intro value _
      apply underSchema_restores
      cases value with
      | obj members => exact visitBranch_restores limits hmapping tag members
      | _ => exact report_restores limits

theorem visitors?_restore
    (hfollow : ∀ name value, (follow name value).Restores) :
    ∀ (schemas : Option (Entries Schema none)) (visitors : KeyMap Visitor),
      visitors? limits follow schemas = some visitors →
        ∀ entry ∈ visitors.toList, Visitor.Restores entry.2
  | none, _, hvisitors => nomatch hvisitors
  | some schemas, _, rfl => visitors_restore hfollow schemas

theorem visitors_restore
    (hfollow : ∀ name value, (follow name value).Restores)
    {lo : Option String} : ∀ (schemas : Entries Schema lo),
      ∀ entry ∈ (visitors limits follow schemas).toList,
        Visitor.Restores entry.2
  | .nil => fun _ hentry => nomatch hentry
  | .cons _ _ schema rest => by
      have hschema := Schema.visit_restores hfollow schema
      have hrest := visitors_restore hfollow rest
      intro entry hentry
      rcases List.mem_cons.mp hentry with rfl | hentry
      · exact hschema
      · exact hrest entry hentry

end

theorem mapped_visit_restores
    (hfollow : ∀ name value, (follow name value).Restores)
    (schemas : KeyMap Schema) :
    ∀ entry ∈ (schemas.map (Schema.visit limits follow)).toList,
      Visitor.Restores entry.2 := by
  rw [← visitors_eq_map]
  exact visitors_restore limits hfollow schemas

end

variable {limits : Limits} {root : Schema}

/-- A ref puts back the path that it has taken away, and leaves as many refs
active as there were. -/
theorem visitRef_restores {enter : Schema → Visitor}
    (henter : ∀ target, (enter target).Restores) (name : String)
    (value : Json) : (visitRef limits root enter name value).Restores := by
  intro walk
  by_cases hdeep : limits.depthReached walk.place.depth = true
  · rw [visitRef, if_pos hdeep]
  · rw [visitRef, if_neg hdeep]
    cases root.definition? name with
    | none => rfl
    | some target =>
        rw [Visit.place_within (henter target value none),
          Place.outsideRef_atDefinition]

/-- However a visit by a schema ends, it is back at its place. -/
theorem visitor_restores (limits : Limits) (root : Schema) (allowance : Nat)
    (schema : Schema) : (visitor limits root allowance schema).Restores := by
  induction allowance generalizing schema with
  | zero =>
      apply Schema.visit_restores limits
      apply visitRef_restores
      exact fun _ _ _ => Visit.halt_restores .endless
  | succ allowance ih =>
      apply Schema.visit_restores limits
      exact visitRef_restores ih

end SchemaForms
