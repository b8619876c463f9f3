import SchemaForms.Proofs.Checked
import SchemaForms.Proofs.Listing
/-!
What a schema accepts.  `Accepts` gives the eight forms their meaning, without
paths and without an order; it holds by finite derivations only, so it does not
hold of a value at which the refs go round in a circle.  A value is accepted
exactly when its listing is empty (`listing_nil_iff_accepts`), and a validation
against a checked schema gives no other verdict (`validate_verdict`).
-/

namespace SchemaForms

/-- A schema below a root accepts a value; the tag is a member that is known
already. -/
inductive Accepts (root : Schema) : Schema → Json → Option String → Prop where
  /-- The empty form accepts everything. -/
  | empty {s : Schema} {value : Json} {tag : Option String}
      (hform : s.form = .empty) :
      Accepts root s value tag
  /-- A ref accepts what the root definition of its name accepts, without a
  tag. -/
  | ref {s target : Schema} {value : Json} {tag : Option String} {name : String}
      (hform : s.form = .ref name)
      (htarget : root.definition? name = some target)
      (haccepts : Accepts root target value none) : Accepts root s value tag
  /-- A type accepts the primitive values that conform to it. -/
  | type {s : Schema} {value : Json} {tag : Option String}
      {type : PrimitiveType} (hform : s.form = .type type)
      (htype : type.accepts value = true) : Accepts root s value tag
  /-- An enum accepts its strings. -/
  | enum {s : Schema} {tag : Option String} {values : KeySet} {string : String}
      (hform : s.form = .enum values)
      (hvalues : values.contains string = true) :
      Accepts root s (.str string) tag
  /-- An elements form accepts the arrays of which all items are accepted,
  without a tag. -/
  | elements {s schema : Schema} {tag : Option String} {items : List Json}
      (hform : s.form = .elements schema)
      (hitems : ∀ item ∈ items, Accepts root schema item none) :
      Accepts root s (.arr items) tag
  /-- A values form accepts the objects of which all members are accepted,
  without a tag. -/
  | values {s schema : Schema} {tag : Option String} {members : KeyMap Json}
      (hform : s.form = .values schema)
      (hmembers : ∀ key member, members.get? key = some member →
        Accepts root schema member none) :
      Accepts root s (.obj members) tag
  /-- A properties form accepts the objects that have every required member, of
  which the declared members are accepted, and which have no other member but
  the tag, unless others may be there. -/
  | properties {s : Schema} {tag : Option String}
      {required optional : Option (KeyMap Schema)} {additional : Bool}
      {members : KeyMap Json}
      (hform : s.form = .properties required optional additional)
      (hpresent : ∀ key, declares required key = true →
        members.contains key = true)
      (hrequired : ∀ schemas key schema member, required = some schemas →
        schemas.get? key = some schema → members.get? key = some member →
          Accepts root schema member none)
      (hoptional : ∀ schemas key schema member, optional = some schemas →
        schemas.get? key = some schema → members.get? key = some member →
          Accepts root schema member none)
      (hothers : additional = false → ∀ key, members.contains key = true →
        declares required key = true ∨ declares optional key = true ∨
        tag = some key) :
      Accepts root s (.obj members) tag
  /-- A discriminator accepts the objects of which the tag is a string that
  names a branch, when this branch accepts the whole object with that tag. -/
  | discriminator {s schema : Schema} {tag : Option String}
      {name branch : String} {mapping : KeyMap Schema} {members : KeyMap Json}
      (hform : s.form = .discriminator name mapping)
      (htag : members.get? name = some (.str branch))
      (hbranch : mapping.get? branch = some schema)
      (haccepts : Accepts root schema (.obj members) (some name)) :
      Accepts root s (.obj members) tag

variable {root : Schema} {parts : List Part}

theorem isDeclared_eq_true_iff {required optional : Option (KeyMap Schema)}
    {tag : Option String} {key : String} :
    isDeclared required optional tag key = true ↔
      declares required key = true ∨ declares optional key = true ∨
      tag = some key := by
  simp [isDeclared, declares, or_assoc]

theorem listing_nil_iff :
    Listing root parts [] ↔ ∀ part ∈ parts, ∃ c, part = .node c ∧
      Listing root (c.parts root) [] := by
  constructor
  · intro hlisting
    generalize hlisted : ([] : List Violation) = listed at hlisting
    induction hlisting with
    | nil => exact nofun
    | clash _ _ => cases hlisted
    | @node n parts rest inner listed hparts hinner _ _ ih =>
        cases hparts.eq_parts
        obtain ⟨rfl, rfl⟩ := List.append_eq_nil_iff.1 hlisted.symm
        intro part hpart
        rcases List.mem_cons.1 hpart with rfl | hpart
        · exact ⟨n, rfl, hinner⟩
        · exact ih rfl part hpart
  · intro hparts
    induction parts with
    | nil => exact .nil
    | cons part rest ih =>
        obtain ⟨c, rfl, hinner⟩ := hparts part List.mem_cons_self
        exact .node (Node.enumerates_parts _ _) hinner (ih fun other hother =>
          hparts other (List.mem_cons_of_mem _ hother))

theorem listing_nil_of_properties {required optional : Option (KeyMap Schema)}
    {additional : Bool} {tag : Option String} {members : KeyMap Json}
    (place : Place) (hpresent : ∀ key, declares required key = true →
      members.contains key = true)
    (hrequired : ∀ schemas key schema member, required = some schemas →
      schemas.get? key = some schema → members.get? key = some member →
        ∀ place, Listing root (Node.parts root ⟨place, schema, member, none⟩)
          [])
    (hoptional : ∀ schemas key schema member, optional = some schemas →
      schemas.get? key = some schema → members.get? key = some member →
        ∀ place, Listing root (Node.parts root ⟨place, schema, member, none⟩)
          [])
    (hothers : additional = false → ∀ key, members.contains key = true →
      isDeclared required optional tag key = true) :
    Listing root (Part.ofProperties place required optional additional tag
      members) [] := by
  rw [listing_nil_iff]
  intro part hpart
  unfold Part.ofProperties at hpart
  rw [List.mem_append, List.mem_append] at hpart
  rcases hpart with (hpart | hpart) | hpart
  · cases required with
    | none => cases hpart
    | some required =>
        obtain ⟨key, schema, hkey, ⟨hmissing, rfl⟩ | ⟨member, hmember, rfl⟩⟩ :=
          Part.mem_ofRequired_iff.1 hpart
        · have hcontains := hpresent key (Entries.contains_iff.2 ⟨schema, hkey⟩)
          obtain ⟨member, hmember⟩ := Entries.contains_iff.1 hcontains
          cases hmember.symm.trans hmissing
        · exact ⟨_, rfl, hrequired _ _ _ _ rfl hkey hmember _⟩
  · cases optional with
    | none => cases hpart
    | some optional =>
        obtain ⟨key, schema, member, hkey, hmember, rfl⟩ :=
          Part.mem_ofOptional_iff.1 hpart
        exact ⟨_, rfl, hoptional _ _ _ _ rfl hkey hmember _⟩
  · cases additional with
    | true => cases hpart
    | false =>
        obtain ⟨key, hmember, hkey, rfl⟩ := Part.mem_ofUndeclared_iff.1 hpart
        cases (hothers rfl key hmember).symm.trans hkey

/-- At an accepted value nothing is to be listed, wherever it is. -/
theorem Accepts.listing_nil {s : Schema} {value : Json} {tag : Option String}
    (haccepts : Accepts root s value tag) (place : Place) :
    Listing root (Node.parts root ⟨place, s, value, tag⟩) [] := by
  induction haccepts generalizing place with
  | @empty s value tag hform =>
      obtain ⟨definitions, form⟩ := s
      cases hform
      exact .nil
  | @ref s target value tag name hform htarget _ ih =>
      rw [Node.parts_ref hform htarget]
      exact .node (Node.enumerates_parts _ _) (ih _) .nil
  | @type s value tag type hform htype =>
      obtain ⟨definitions, form⟩ := s
      cases hform
      simp only [Node.parts, htype, if_true]
      exact .nil
  | @enum s tag values string hform hvalues =>
      obtain ⟨definitions, form⟩ := s
      cases hform
      simp only [Node.parts, hvalues, if_true]
      exact .nil
  | @elements s schema tag items hform _ ih =>
      obtain ⟨definitions, form⟩ := s
      cases hform
      rw [listing_nil_iff]
      intro part hpart
      obtain ⟨index, item, hitem, rfl⟩ := Part.mem_ofItems_iff.1 hpart
      exact ⟨_, rfl, ih item (List.mem_of_getElem? hitem) _⟩
  | @values s schema tag members hform _ ih =>
      obtain ⟨definitions, form⟩ := s
      cases hform
      rw [listing_nil_iff]
      intro part hpart
      obtain ⟨key, member, hmember, rfl⟩ := Part.mem_ofMembers_iff.1 hpart
      exact ⟨_, rfl, ih key member hmember _⟩
  | @properties s tag required optional additional members hform hpresent _ _
      hothers ihrequired ihoptional =>
      obtain ⟨definitions, form⟩ := s
      cases hform
      refine listing_nil_of_properties place hpresent ihrequired ihoptional ?_
      intro hadditional key hmember
      exact isDeclared_eq_true_iff.2 (hothers hadditional key hmember)
  | @discriminator s schema tag name branch mapping members hform htag
      hbranch _ ih =>
        obtain ⟨definitions, form⟩ := s
        cases hform
        simp only [Node.parts, Part.ofBranch, htag, hbranch]
        exact .node (Node.enumerates_parts _ _) (ih _) .nil

/-- A value that has no clash for its shape has that shape. -/
theorem exists_eq_of_not_clash {α : Type} {n : Node} {place : Place}
    {value : Json} {shape : α → Json}
    (hclash : ∀ place, ¬ n.Meets root (.clash place))
    (hother : (∀ a, value ≠ shape a) → n.Meets root (.clash place)) : ∃ a,
    value = shape a := by
  by_contra hno
  apply hclash place
  apply hother
  intro a heq
  exact hno ⟨a, heq⟩

section

variable {n : Node} (hclash : ∀ place, ¬ n.Meets root (.clash place))

include hclash

theorem type_accepts_of_not_clash {type : PrimitiveType}
    (hform : n.schema.form = .type type) :
    type.accepts n.value = true := by
  by_contra htype
  apply hclash
  exact .type hform (Bool.eq_false_of_not_eq_true htype)

theorem exists_str_of_not_clash {values : KeySet}
    (hform : n.schema.form = .enum values) :
    ∃ string, n.value = .str string ∧ values.contains string = true := by
  by_contra hno
  apply hclash
  apply Node.Meets.enum hform
  intro string heq
  apply Bool.eq_false_of_not_eq_true
  intro hstring
  exact hno ⟨string, heq, hstring⟩

theorem contains_of_not_clash {required optional : Option (KeyMap Schema)}
    {additional : Bool} {members : KeyMap Json}
    (hform : n.schema.form = .properties required optional additional)
    (hvalue : n.value = .obj members) {key : String}
    (hkey : declares required key = true) :
    members.contains key = true := by
  by_contra hmissing
  cases required with
  | none => cases hkey
  | some required =>
      apply hclash
      apply Node.Meets.missing hform hvalue hkey
      rw [← Option.not_isSome_iff_eq_none]
      exact hmissing

theorem declared_of_not_clash {required optional : Option (KeyMap Schema)}
    {members : KeyMap Json}
    (hform : n.schema.form = .properties required optional false)
    (hvalue : n.value = .obj members) {key : String}
    (hkey : members.contains key = true) :
    declares required key = true ∨ declares optional key = true ∨
    n.tag = some key := by
  rw [← isDeclared_eq_true_iff]
  by_contra hdeclared
  apply hclash
  exact .undeclared hform hvalue hkey (Bool.eq_false_of_not_eq_true hdeclared)

theorem exists_branch_of_not_clash {tag : String} {mapping : KeyMap Schema}
    {members : KeyMap Json} (hform : n.schema.form = .discriminator tag mapping)
    (hvalue : n.value = .obj members) :
    ∃ branch schema, members.get? tag = some (.str branch) ∧
      mapping.get? branch = some schema := by
  cases htag : members.get? tag with
  | none => exact absurd (.noTag hform hvalue htag) (hclash _)
  | some member =>
      obtain ⟨branch, rfl⟩ :=
        exists_eq_of_not_clash hclash (Node.Meets.badTag hform hvalue htag)
      cases hbranch : mapping.get? branch with
      | none => exact absurd (.noBranch hform hvalue htag hbranch) (hclash _)
      | some schema => exact ⟨branch, schema, rfl, hbranch⟩

end

/-- A node that meets nodes only, all of them accepted, is accepted. -/
theorem accepts_of_meets {n : Node}
    (hclash : ∀ place, ¬ n.Meets root (.clash place))
    (hdangling : ∀ name, ¬ n.Meets root (.dangling name))
    (hnode : ∀ c, n.Meets root (.node c) →
      Accepts root c.schema c.value c.tag) :
    Accepts root n.schema n.value n.tag := by
  cases hform : n.schema.form with
  | empty => exact .empty hform
  | ref name =>
      cases htarget : root.definition? name with
      | none => exact absurd (.dangling hform htarget) (hdangling name)
      | some target =>
          exact .ref hform htarget (hnode _ (.target hform htarget))
  | type type => exact .type hform (type_accepts_of_not_clash hclash hform)
  | enum values =>
      obtain ⟨string, hvalue, hstring⟩ := exists_str_of_not_clash hclash hform
      rw [hvalue]
      exact .enum hform hstring
  | elements schema =>
      obtain ⟨items, hvalue⟩ :=
        exists_eq_of_not_clash hclash (Node.Meets.notArray hform)
      rw [hvalue]
      apply Accepts.elements hform
      intro item hitem
      obtain ⟨index, hindex⟩ := List.mem_iff_getElem?.1 hitem
      exact hnode _ (.item hform hvalue hindex)
  | values schema =>
      obtain ⟨members, hvalue⟩ :=
        exists_eq_of_not_clash hclash (Node.Meets.notMap hform)
      rw [hvalue]
      apply Accepts.values hform
      intro key member hmember
      exact hnode _ (.member hform hvalue hmember)
  | properties required optional additional =>
      obtain ⟨members, hvalue⟩ :=
        exists_eq_of_not_clash hclash (Node.Meets.notObject hform)
      rw [hvalue]
      refine .properties hform ?_ ?_ ?_ ?_
      · intro key hkey
        exact contains_of_not_clash hclash hform hvalue hkey
      · rintro schemas key schema member rfl hkey hmember
        exact hnode _ (.required hform hvalue hkey hmember)
      · rintro schemas key schema member rfl hkey hmember
        exact hnode _ (.optional hform hvalue hkey hmember)
      · rintro rfl key hmember
        exact declared_of_not_clash hclash hform hvalue hmember
  | discriminator tag mapping =>
      obtain ⟨members, hvalue⟩ :=
        exists_eq_of_not_clash hclash (Node.Meets.notTagged hform)
      obtain ⟨branch, schema, htag, hbranch⟩ :=
        exists_branch_of_not_clash hclash hform hvalue
      have haccepts := hnode _ (.branch hform hvalue htag hbranch)
      rw [hvalue] at haccepts ⊢
      exact .discriminator hform htag hbranch haccepts

/-- Nodes with an empty listing are accepted. -/
theorem accepts_of_listing_nil {listed : List Violation}
    (hlisting : Listing root parts listed) (hlisted : listed = []) {c : Node}
    (hpart : .node c ∈ parts) :
    Accepts root c.schema c.value c.tag := by
  -- The derivation of the listing is the one of the acceptance, node by node.
  induction hlisting generalizing c with
  | nil => cases hpart
  | clash _ _ => cases hlisted
  | @node n parts rest inner listed henum hinner _ ihinner ihrest =>
      obtain ⟨rfl, rfl⟩ := List.append_eq_nil_iff.1 hlisted
      rcases List.mem_cons.1 hpart with heq | hpart
      · cases heq
        have hparts := listing_nil_iff.1 hinner
        apply accepts_of_meets
        · intro place hmeets
          obtain ⟨c, hc, -⟩ := hparts _ ((henum.complete _).2 hmeets)
          cases hc
        · intro name hmeets
          obtain ⟨c, hc, -⟩ := hparts _ ((henum.complete _).2 hmeets)
          cases hc
        · intro c hmeets
          exact ihinner rfl ((henum.complete _).2 hmeets)
      · exact ihrest rfl hpart

theorem listing_nil_iff_accepts {n : Node} :
    Listing root [.node n] [] ↔ Accepts root n.schema n.value n.tag := by
  constructor
  · intro hlisting
    exact accepts_of_listing_nil hlisting rfl List.mem_cons_self
  · intro haccepts
    exact .node (Node.enumerates_parts _ _) (haccepts.listing_nil n.place) .nil

section

variable {schema : Schema} {value : Json} {limits : Limits}

/-- A validation that ends without a violation has visited everything, whatever
its limits are. -/
theorem Agenda.ends_of_validate_nil
    (hvalid : validate limits schema value = .ok []) :
    Ends limits schema (start schema value) [] none := by
  obtain ⟨reason, hends, rfl | rfl⟩ := validate_eq_ok_iff.1 hvalid
  · exact hends
  · obtain ⟨a, -, hstop⟩ := hends.exists_stop
    generalize hfound : ([] : List Violation) = found at hstop
    cases hstop with
    | errorLimit hlimit =>
        exact absurd hfound.symm
          (List.append_ne_nil_of_right_ne_nil _ (by simp))

theorem accepts_of_validate (hvalid : validate limits schema value = .ok []) :
    Accepts schema schema value none := by
  obtain ⟨listed, hlisting, hfound⟩ :=
    (Agenda.ends_of_validate_nil hvalid).exists_listing
  cases hfound
  exact listing_nil_iff_accepts.1 hlisting

/-- Against an accepted value there is nothing to say but that the refs are
nested too deep. -/
theorem validate_of_accepts (haccepts : Accepts schema schema value none)
    (limits : Limits) :
    validate limits schema value = .ok [] ∨
      0 < limits.maxDepth ∧
        validate limits schema value =
          .error (.maxDepthExceeded limits.maxDepth) := by
  have hlisting : Listing schema [.node (.start schema value)] [] :=
    listing_nil_iff_accepts.2 haccepts
  simpa using validate_of_listing_limits hlisting limits

/-- The nesting of the refs at an accepted value is bounded. -/
theorem exists_enough_depth_of_accepts
    (haccepts : Accepts schema schema value none) :
    ∃ enough, ∀ depth, enough ≤ depth → ∀ errors,
      validate ⟨depth, errors⟩ schema value = .ok [] := by
  have hvalid : validate ⟨0, 0⟩ schema value = .ok [] :=
    validate_of_listing (listing_nil_iff_accepts.2 haccepts)
  have hreturns : validate ⟨0, 0⟩ schema value ≠ .error .endless := by
    simp [hvalid]
  obtain ⟨enough, henough⟩ := exists_enough_depth hreturns
  use enough
  intro depth hle errors
  have hdeep := (henough depth hle).trans hvalid
  rcases Nat.eq_zero_or_pos errors with rfl | hpos
  · exact hdeep
  · rw [validate_take hpos (.inr rfl) hdeep, List.take_nil]

/-- A value that is not accepted by a checked schema is told by a violation,
unless the refs are nested too deep or go round in a circle. -/
theorem validate_of_not_accepts (hchecked : schema.issues = [])
    (haccepts : ¬ Accepts schema schema value none) (limits : Limits) :
    (∃ found, found ≠ [] ∧ validate limits schema value = .ok found) ∨
      (0 < limits.maxDepth ∧
        validate limits schema value =
          .error (.maxDepthExceeded limits.maxDepth)) ∨
      limits.maxDepth = 0 ∧ validate limits schema value = .error .endless := by
  cases hresult : validate limits schema value with
  | ok found =>
      refine .inl ⟨found, ?_, rfl⟩
      rintro rfl
      exact haccepts (accepts_of_validate hresult)
  | error failure =>
      right
      cases failure with
      | maxDepthExceeded limit =>
          obtain ⟨rfl, found, hends⟩ :=
            Agenda.validate_eq_maxDepthExceeded_iff.1 hresult
          left
          refine ⟨?_, rfl⟩
          apply Nat.pos_of_ne_zero
          intro hzero
          obtain ⟨depth, errors⟩ := limits
          cases hzero
          exact hends.ne_depthExceeded rfl
      | unresolvedRef name =>
          exact absurd hresult (validate_ne_unresolvedRef hchecked)
      | endless =>
          right
          refine ⟨?_, rfl⟩
          apply Nat.eq_zero_of_not_pos
          intro hpos
          exact validate_ne_endless hpos hresult

/-- The verdict of a validation against a checked schema: without a violation
the value is accepted, with one it is not, and an accepted value is told so
whenever enough refs may be nested. -/
theorem validate_verdict (schema : Schema) (hchecked : schema.issues = [])
    (value : Json) (limits : Limits) :
    (validate limits schema value = .ok [] → Accepts schema schema value none) ∧
    (∀ found, validate limits schema value = .ok found → found ≠ [] →
      ¬ Accepts schema schema value none) ∧
    (Accepts schema schema value none →
      (∀ errors, validate ⟨0, errors⟩ schema value = .ok []) ∧
      (validate limits schema value = .ok [] ∨
        0 < limits.maxDepth ∧
          validate limits schema value =
            .error (.maxDepthExceeded limits.maxDepth)) ∧
      ∃ enough, ∀ depth, enough ≤ depth → ∀ errors,
        validate ⟨depth, errors⟩ schema value = .ok []) ∧
    (¬ Accepts schema schema value none →
      (∃ found, found ≠ [] ∧ validate limits schema value = .ok found) ∨
      (0 < limits.maxDepth ∧
        validate limits schema value =
          .error (.maxDepthExceeded limits.maxDepth)) ∨
      limits.maxDepth = 0 ∧
        validate limits schema value = .error .endless) := by
  refine ⟨accepts_of_validate, ?_, ?_, ?_⟩
  · intro found hvalid hfound haccepts
    rcases validate_of_accepts haccepts limits with hvalid' | ⟨-, hfailed⟩
    · cases hvalid.symm.trans hvalid'
      exact hfound rfl
    · cases hvalid.symm.trans hfailed
  · intro haccepts
    refine ⟨?_, validate_of_accepts haccepts limits,
      exists_enough_depth_of_accepts haccepts⟩
    intro errors
    rcases validate_of_accepts haccepts ⟨0, errors⟩ with hvalid | ⟨hpos, -⟩
    · exact hvalid
    · exact absurd hpos (Nat.lt_irrefl 0)
  · intro haccepts
    exact validate_of_not_accepts hchecked haccepts limits

def smallTree : Json :=
  .object [("label", .str "a"),
    ("children", .arr [.object [("label", .str "b")]])]

theorem validate_verdict_labelledTree :
    labelledTree.issues = [] ∧
    Accepts labelledTree labelledTree smallTree none ∧
      ¬ Accepts labelledTree labelledTree mislabelledTree none ∧
      (∃ enough, ∀ depth, enough ≤ depth → ∀ errors,
        validate ⟨depth, errors⟩ labelledTree smallTree = .ok []) ∧
      ((∃ found, found ≠ [] ∧
        validate ⟨2, 1⟩ labelledTree mislabelledTree = .ok found) ∨
        (0 < 2 ∧ validate ⟨2, 1⟩ labelledTree mislabelledTree =
          .error (.maxDepthExceeded 2)) ∨
        2 = 0 ∧
          validate ⟨2, 1⟩ labelledTree mislabelledTree = .error .endless) := by
  have hchecked : labelledTree.issues = [] := by decide +kernel
  obtain ⟨hempty, -, hcomplete, -⟩ :=
    validate_verdict labelledTree hchecked smallTree ⟨3, 1⟩
  obtain ⟨-, hfound, -, -⟩ :=
    validate_verdict labelledTree hchecked mislabelledTree ⟨0, 0⟩
  obtain ⟨-, -, -, hreject⟩ :=
    validate_verdict labelledTree hchecked mislabelledTree ⟨2, 1⟩
  have haccepts : Accepts labelledTree labelledTree smallTree none := hempty rfl
  have hnot : ¬ Accepts labelledTree labelledTree mislabelledTree none :=
    hfound mislabelledTreeViolations rfl (by decide)
  exact ⟨hchecked, haccepts, hnot, (hcomplete haccepts).2.2, hreject hnot⟩

end

end SchemaForms
