import SchemaForms.Proofs.Acceptance
/-!
Loosening a schema.  `Form.Loosens` says how a form may be changed so that it
demands less, and `Schema.Relaxes` that the form of a schema and its definitions
have been changed so.  The looser schema is visited side by side with the other
one: what it meets at a value that is accepted, the other one meets too, at the
same value and inside as many refs (`Node.Looser.meets`).  So a validation that
finds nothing finds nothing against the looser schema, under the same limits
(`validate_of_relaxes`).
-/

namespace SchemaForms

/-- A type that accepts numbers only. -/
def PrimitiveType.IsNumeric (type : PrimitiveType) : Prop :=
  type.integerRange?.isSome = true ∨ type = .float32 ∨ type = .float64

/-- A type that accepts no less than another one. -/
inductive PrimitiveType.Widens : PrimitiveType → PrimitiveType → Prop where
  | same {type : PrimitiveType} : Widens type type
  /-- An integer type whose range includes that of the other. -/
  | range {type wider : PrimitiveType} {least greatest least' greatest' : Int}
      (hrange : type.integerRange? = some (least, greatest))
      (hwider : wider.integerRange? = some (least', greatest'))
      (hleast : least' ≤ least) (hgreatest : greatest ≤ greatest') :
      Widens type wider
  /-- A float type, from any type of numbers. -/
  | float {type wider : PrimitiveType} (hnumeric : type.IsNumeric)
      (hwider : wider = .float32 ∨ wider = .float64) : Widens type wider
  | timestamp : Widens .timestamp .string

/-- The schema by which a properties form with these two maps declares a
member. -/
def DeclaredBy (required optional : Option (KeyMap Schema)) (key : String)
    (s : Schema) : Prop :=
  required.bind (·.get? key) = some s ∨ optional.bind (·.get? key) = some s

/-- How a properties form may change the members that it declares: required
members may become optional, and other members may be let in.  A declared member
may be dropped when others are let in now, and a new one may be declared, as
optional, when none were let in before. -/
structure LoosensKeys (required optional : Option (KeyMap Schema))
    (additional : Bool) (required' optional' : Option (KeyMap Schema))
    (additional' : Bool) : Prop where
  others : additional = true → additional' = true
  demanded : ∀ key, declares required' key = true → declares required key = true
  added : ∀ key, declares optional' key = true →
    declares required key = true ∨ declares optional key = true ∨
    additional = false
  dropped : ∀ key, declares required key = true ∨ declares optional key = true →
    declares required' key = true ∨ declares optional' key = true ∨
    additional' = true

/-- A form that demands no more than another one. -/
inductive Form.Loosens : Form → Form → Prop where
  /-- Anything may be accepted. -/
  | empty {form : Form} : Loosens form .empty
  /-- A ref stays, and its definition is loosened. -/
  | ref {name : String} : Loosens (.ref name) (.ref name)
  | type {type wider : PrimitiveType} (htype : type.Widens wider) :
      Loosens (.type type) (.type wider)
  /-- Strings are added. -/
  | enum {values more : KeySet}
      (hvalues : ∀ string, values.contains string = true →
        more.contains string = true) :
      Loosens (.enum values) (.enum more)
  /-- Any string may be accepted. -/
  | string {values : KeySet} : Loosens (.enum values) (.type .string)
  | elements {s t : Schema} (hitems : Loosens s.form t.form) :
      Loosens (.elements s) (.elements t)
  | values {s t : Schema} (hmembers : Loosens s.form t.form) :
      Loosens (.values s) (.values t)
  /-- The declared members are changed, and their schemas are loosened. -/
  | properties {required optional required' optional' : Option (KeyMap Schema)}
      {additional additional' : Bool}
      (hkeys : LoosensKeys required optional additional required'
        optional' additional')
      (hmembers : ∀ key s t, DeclaredBy required optional key s →
        DeclaredBy required' optional' key t → Loosens s.form t.form) :
      Loosens (.properties required optional additional)
        (.properties required' optional' additional')
  /-- Branches are added, and the others are loosened. -/
  | discriminator {tag : String} {mapping mapping' : KeyMap Schema}
      (hkept : ∀ branch, mapping.contains branch = true →
        mapping'.contains branch = true)
      (hbranches : ∀ branch s t, mapping.get? branch = some s →
        mapping'.get? branch = some t →
        Loosens s.form t.form) :
      Loosens (.discriminator tag mapping) (.discriminator tag mapping')

/-- The form of a schema is loosened, and so are its definitions; there may be
new ones. -/
structure Schema.Relaxes (schema looser : Schema) : Prop where
  form : schema.form.Loosens looser.form
  definitions : ∀ name s, schema.definition? name = some s →
    ∃ t, looser.definition? name = some t ∧ s.form.Loosens t.form

namespace PrimitiveType

variable {type wider : PrimitiveType} {value : Json}

theorem inRange_of_le {least greatest least' greatest' : Int} {n : Number}
    (hleast : least' ≤ least) (hgreatest : greatest ≤ greatest')
    (hn : inRange (least, greatest) n = true) :
    inRange (least', greatest') n = true := by
  unfold inRange at hn ⊢
  split at hn
  next integer hinteger =>
    simp only [Bool.and_eq_true, decide_eq_true_eq] at hn ⊢
    exact ⟨hleast.trans hn.1, hn.2.trans hgreatest⟩
  next => cases hn

theorem exists_num_of_isNumeric (hnumeric : type.IsNumeric)
    (haccepts : type.accepts value = true) :
    ∃ n, value = .num n := by
  have hne : type ≠ .boolean ∧ type ≠ .string ∧ type ≠ .timestamp := by
    refine ⟨?_, ?_, ?_⟩ <;> rintro rfl <;> simp [IsNumeric, integerRange?]
      at hnumeric
  cases value with
  | num n => exact ⟨n, rfl⟩
  | bool b => simp [accepts, hne] at haccepts
  | str s => simp [accepts, hne] at haccepts
  | _ => cases haccepts

theorem accepts_num_of_range {least greatest : Int}
    (hrange : type.integerRange? = some (least, greatest)) (n : Number) :
    type.accepts (.num n) = inRange (least, greatest) n := by
  simp only [accepts, hrange]

/-- A wider type accepts whatever the other one accepts. -/
theorem Widens.accepts (hwidens : type.Widens wider)
    (haccepts : type.accepts value = true) :
    wider.accepts value = true := by
  cases hwidens with
  | same => exact haccepts
  | range hrange hwider hleast hgreatest =>
      obtain ⟨n, rfl⟩ :=
        exists_num_of_isNumeric (.inl (by simp [hrange])) haccepts
      rw [accepts_num_of_range hrange] at haccepts
      rw [accepts_num_of_range hwider]
      exact inRange_of_le hleast hgreatest haccepts
  | float hnumeric hwider =>
      obtain ⟨n, rfl⟩ := exists_num_of_isNumeric hnumeric haccepts
      rcases hwider with rfl | rfl <;> rfl
  | timestamp =>
      cases value with
      | str s => rfl
      | num n =>
          exact absurd haccepts (by simp [PrimitiveType.accepts, integerRange?])
      | _ => cases haccepts

end PrimitiveType

variable {limits : Limits} {root root' : Schema} {n c n' c' : Node}
  {part : Part}

/-- A node meets no violation, no dangling ref and no limit, only further
nodes. -/
structure Node.Quiet (limits : Limits) (root : Schema) (n : Node) : Prop where
  deep : n.tooDeep limits = false
  clash : ∀ place, ¬ n.Meets root (.clash place)
  dangling : ∀ name, ¬ n.Meets root (.dangling name)

/-- A node is quiet, and so is every node that it leads to, in a visit that
comes to an end. -/
inductive Node.Passes (limits : Limits) (root : Schema) : Node → Prop where
  | intro {n : Node} (hquiet : n.Quiet limits root)
      (hnodes : ∀ c, n.Meets root (.node c) → Passes limits root c) :
      Passes limits root n

/-- A node passes when all that it meets are nodes that pass. -/
theorem Node.Passes.of_meets (hdeep : n.tooDeep limits = false)
    (hmeets : ∀ part, n.Meets root part → ∃ c, part = .node c ∧
      c.Passes limits root) :
    n.Passes limits root := by
  refine .intro ⟨hdeep, ?_, ?_⟩ ?_
  · intro place hclash
    obtain ⟨c, hc, -⟩ := hmeets _ hclash
    cases hc
  · intro name hdangling
    obtain ⟨c, hc, -⟩ := hmeets _ hdangling
    cases hc
  · intro c hnode
    obtain ⟨d, hd, hpasses⟩ := hmeets _ hnode
    cases hd
    exact hpasses

namespace Agenda

variable {a : Agenda} {found : List Violation} {todo : List Part}

/-- What is still to be visited are nodes that pass. -/
def Clear (limits : Limits) (root : Schema) (todo : List Part) : Prop :=
  ∀ part ∈ todo, ∃ n, part = .node n ∧ n.Passes limits root

theorem Clear.enter (hdeep : n.tooDeep limits = false)
    (hclear : Clear limits root (n.parts root ++ todo)) :
    Clear limits root (.node n :: todo) := by
  intro part hpart
  rcases List.mem_cons.1 hpart with rfl | hpart
  · refine ⟨n, rfl, .of_meets hdeep ?_⟩
    intro part hmeets
    exact hclear part (List.mem_append_left _ (Node.mem_parts_iff.2 hmeets))
  · exact hclear part (List.mem_append_right _ hpart)

/-- An agenda that comes to its end without a violation is clear. -/
theorem Ends.clear (hends : Ends limits root a found none)
    (hfound : found = []) :
    Clear limits root a.todo := by
  generalize hreason : (none : Option Halt) = reason at hends
  induction hends with
  | stop hstop =>
      cases hstop with
      | done => exact nofun
      | _ => cases hreason
  | step hstep hends ih =>
      subst hreason
      cases hstep with
      | report hlimit =>
          obtain ⟨listed, -, hlisted⟩ := hends.exists_listing
          simp [hfound] at hlisted
      | enter hdeep => exact (ih hfound rfl).enter hdeep

theorem reaches_of_forall_mem {parts : List Part}
    (hparts : ∀ part ∈ parts, ∀ todo,
      Reaches limits root ⟨part :: todo, found⟩ ⟨todo, found⟩)
    (todo : List Part) :
    Reaches limits root ⟨parts ++ todo, found⟩ ⟨todo, found⟩ := by
  induction parts with
  | nil => exact .refl
  | cons part rest ih =>
      have hfirst := hparts part List.mem_cons_self (rest ++ todo)
      exact hfirst.trans (ih fun other hother =>
        hparts other (List.mem_cons_of_mem _ hother))

/-- A node that passes is taken off the agenda, and nothing is found. -/
theorem reaches_of_passes (hpasses : n.Passes limits root) (todo : List Part)
    (found : List Violation) :
    Reaches limits root ⟨.node n :: todo, found⟩ ⟨todo, found⟩ := by
  induction hpasses generalizing todo with
  | @intro n hquiet _ ih =>
      refine .head (.enter hquiet.deep) (reaches_of_forall_mem ?_ todo)
      intro part hpart todo
      have hmeets := Node.mem_parts_iff.1 hpart
      cases part with
      | clash place => exact absurd hmeets (hquiet.clash place)
      | dangling name => exact absurd hmeets (hquiet.dangling name)
      | node c => exact ih c hmeets todo

end Agenda

/-- A validation finds nothing exactly when the node at which it starts
passes. -/
theorem validate_eq_nil_iff_passes {schema : Schema} {value : Json} :
    validate limits schema value = .ok [] ↔
      (Node.start schema value).Passes limits schema := by
  constructor
  · intro hvalid
    have hends := Agenda.ends_of_validate_nil hvalid
    obtain ⟨n, hn, hpasses⟩ := hends.clear rfl _ List.mem_cons_self
    cases hn
    exact hpasses
  · intro hpasses
    exact Agenda.validate_of_ends
      (Agenda.Reaches.ends (Agenda.reaches_of_passes hpasses [] [])
      (.stop .done))

/-- The node of a looser schema that is visited when `n` is: it has the same
value and tag, and is inside as many refs.  Its form leaves the tag alone. -/
structure Node.Looser (root' : Schema) (n n' : Node) : Prop where
  value : n'.value = n.value
  tag : n'.tag = n.tag
  depth : n'.place.depth = n.place.depth
  form : n.schema.form.Loosens n'.schema.form
  walked : root'.Walked n'.place.schemaPath n'.schema
  untagged : ∀ tag required optional additional, n'.tag = some tag →
    n'.schema.form = .properties required optional additional →
      declares required tag = false ∧ declares optional tag = false

namespace Node

theorem Looser.start {schema looser : Schema} (hrelaxes : schema.Relaxes looser)
    (value : Json) :
    Looser looser (start schema value) (start looser value) :=
  ⟨rfl, rfl, rfl, hrelaxes.form, .start looser, nofun⟩

/-- Below a node without a tag, one step further. -/
theorem Looser.below (hlooser : Looser root' n n')
    (hmeets : n'.Meets root' (.node c')) (hvalue : c'.value = c.value)
    (htag : c.tag = none) (htag' : c'.tag = none)
    (hdepth : c.place.depth = n.place.depth)
    (hdepth' : c'.place.depth = n'.place.depth)
    (hform : c.schema.form.Loosens c'.schema.form) : Looser root' c c' := by
  refine ⟨hvalue, htag'.trans htag.symm, ?_, hform,
    hmeets.walked hlooser.walked, ?_⟩
  · rw [hdepth', hdepth, hlooser.depth]
  · intro tag required optional additional hsome
    cases htag'.symm.trans hsome

/-- What the looser schema meets, and what the other one meets with it. -/
def Matched (root root' : Schema) (n : Node) (part : Part) : Prop :=
  ∃ c c', part = .node c' ∧ n.Meets root (.node c) ∧ Looser root' c c'

-- One step of the two visits, by the rule of the form: the looser schema meets
-- only nodes, and with each of them the other one meets a node too.

theorem Looser.target {name : String} (hlooser : Looser root' n n')
    (hrelaxes : root.Relaxes root') (hquiet : n.Quiet limits root)
    (hform : n.schema.form = .ref name) (hform' : n'.schema.form = .ref name)
    (hmeets : n'.Meets root' part) :
    Matched root root' n part := by
  cases htarget : root.definition? name with
  | none => exact absurd (.dangling hform htarget) (hquiet.dangling name)
  | some target =>
      obtain ⟨target', htarget', hloosens⟩ :=
        hrelaxes.definitions name target htarget
      cases hmeets with
      | @target name' schema hname hschema =>
          obtain rfl : name = name' := Form.ref.inj (hform'.symm.trans hname)
          cases htarget'.symm.trans hschema
          have hwalked := (Meets.target hname hschema).walked hlooser.walked
          refine ⟨_, _, rfl, .target hform htarget, hlooser.value, rfl, ?_,
            hloosens, hwalked, nofun⟩
          exact congrArg (· + 1) hlooser.depth
      | @dangling name' hname hnone =>
          obtain rfl : name = name' := Form.ref.inj (hform'.symm.trans hname)
          cases htarget'.symm.trans hnone
      | _ => simp_all

theorem Looser.type {type wider : PrimitiveType} (hlooser : Looser root' n n')
    (hquiet : n.Quiet limits root) (hform : n.schema.form = .type type)
    (hform' : n'.schema.form = .type wider) (hwidens : type.Widens wider)
    (hmeets : n'.Meets root' part) : Matched root root' n part := by
  have haccepts : wider.accepts n'.value = true := by
    rw [hlooser.value]
    exact hwidens.accepts (type_accepts_of_not_clash hquiet.clash hform)
  cases hmeets with
  | type hwider htype => simp_all
  | _ => simp_all

theorem Looser.enum {values more : KeySet} (hlooser : Looser root' n n')
    (hquiet : n.Quiet limits root) (hform : n.schema.form = .enum values)
    (hform' : n'.schema.form = .enum more)
    (hvalues : ∀ string, values.contains string = true →
      more.contains string = true)
    (hmeets : n'.Meets root' part) : Matched root root' n part := by
  obtain ⟨string, hvalue, hstring⟩ := exists_str_of_not_clash hquiet.clash hform
  cases hmeets with
  | enum hmore hno =>
      cases Form.enum.inj (hform'.symm.trans hmore)
      have hfalse := hno string (hlooser.value.trans hvalue)
      rw [hvalues string hstring] at hfalse
      cases hfalse
  | _ => simp_all

theorem Looser.string {values : KeySet} (hlooser : Looser root' n n')
    (hquiet : n.Quiet limits root) (hform : n.schema.form = .enum values)
    (hform' : n'.schema.form = .type .string) (hmeets : n'.Meets root' part) :
    Matched root root' n part := by
  obtain ⟨string, hvalue, -⟩ := exists_str_of_not_clash hquiet.clash hform
  have haccepts : PrimitiveType.string.accepts n'.value = true := by
    rw [hlooser.value, hvalue]
    rfl
  cases hmeets with
  | type hstring htype => simp_all
  | _ => simp_all

theorem Looser.items {s t : Schema} (hlooser : Looser root' n n')
    (hquiet : n.Quiet limits root) (hform : n.schema.form = .elements s)
    (hform' : n'.schema.form = .elements t) (hloosens : s.form.Loosens t.form)
    (hmeets : n'.Meets root' part) :
    Matched root root' n part := by
  obtain ⟨items, hvalue⟩ :=
    exists_eq_of_not_clash hquiet.clash (Meets.notArray hform)
  have hsame : n'.value = .arr items := hlooser.value.trans hvalue
  cases hmeets with
  | notArray _ hno => exact absurd hsame (hno items)
  | @item t' items' index item ht hitems hitem =>
      obtain rfl : t = t' := Form.elements.inj (hform'.symm.trans ht)
      obtain rfl : items = items' := Json.arr.inj (hsame.symm.trans hitems)
      exact ⟨_, _, rfl, .item hform hvalue hitem,
        hlooser.below (.item ht hitems hitem) rfl rfl rfl rfl rfl hloosens⟩
  | _ => simp_all

theorem Looser.members {s t : Schema} (hlooser : Looser root' n n')
    (hquiet : n.Quiet limits root) (hform : n.schema.form = .values s)
    (hform' : n'.schema.form = .values t) (hloosens : s.form.Loosens t.form)
    (hmeets : n'.Meets root' part) :
    Matched root root' n part := by
  obtain ⟨members, hvalue⟩ :=
    exists_eq_of_not_clash hquiet.clash (Meets.notMap hform)
  have hsame : n'.value = .obj members := hlooser.value.trans hvalue
  cases hmeets with
  | notMap _ hno => exact absurd hsame (hno members)
  | @member t' members' key member ht hmembers hmember =>
      obtain rfl : t = t' := Form.values.inj (hform'.symm.trans ht)
      obtain rfl : members = members' :=
        Json.obj.inj (hsame.symm.trans hmembers)
      exact ⟨_, _, rfl, .member hform hvalue hmember,
        hlooser.below (.member ht hmembers hmember) rfl rfl rfl
          rfl rfl hloosens⟩
  | _ => simp_all

theorem Looser.branch {tag : String} {mapping mapping' : KeyMap Schema}
    (hlooser : Looser root' n n') (hquiet : n.Quiet limits root)
    (hchecked : root'.issues = [])
    (hform : n.schema.form = .discriminator tag mapping)
    (hform' : n'.schema.form = .discriminator tag mapping')
    (hkept : ∀ branch, mapping.contains branch = true →
      mapping'.contains branch = true)
    (hbranches : ∀ branch s t, mapping.get? branch = some s →
      mapping'.get? branch = some t →
      s.form.Loosens t.form)
    (hmeets : n'.Meets root' part) : Matched root root' n part := by
  obtain ⟨members, hvalue⟩ :=
    exists_eq_of_not_clash hquiet.clash (Meets.notTagged hform)
  have hsame : n'.value = .obj members := hlooser.value.trans hvalue
  obtain ⟨branch, s, htag, hbranch⟩ :=
    exists_branch_of_not_clash hquiet.clash hform hvalue
  obtain ⟨t, hbranch'⟩ :=
    Entries.contains_iff.1 (hkept branch (Entries.contains_iff.2 ⟨s, hbranch⟩))
  have hmem := mem_parts_iff.2 hmeets
  rw [parts_branch hform' hsame htag hbranch', List.mem_singleton] at hmem
  subst hmem
  have hwalked := hmeets.walked hlooser.walked
  refine ⟨_, _, rfl, .branch hform hvalue htag hbranch, hlooser.value,
    rfl, hlooser.depth, hbranches branch s t hbranch hbranch', hwalked, ?_⟩
  intro other required optional additional hother hproperties
  obtain rfl : tag = other := Option.some.inj hother
  obtain ⟨required', optional', additional', hproperties', huntagged⟩ :=
    hlooser.walked.exists_properties hchecked hform' hbranch'
  cases hproperties'.symm.trans hproperties
  exact huntagged

section

variable {required optional required' optional' : Option (KeyMap Schema)}
  {additional additional' : Bool} {members : KeyMap Json} {key : String}

theorem declares_iff_exists {schemas : Option (KeyMap Schema)} :
    declares schemas key = true ↔ ∃ s, schemas.bind (·.get? key) = some s := by
  cases schemas with
  | none => simp [declares]
  | some schemas => simp [declares, Entries.contains_iff]

/-- A declared member is met as a node, be it required or optional. -/
theorem exists_meets_of_declared
    (hform : n.schema.form = .properties required optional additional)
    (hvalue : n.value = .obj members) {member : Json}
    (hmember : members.get? key = some member)
    (hdeclared : declares required key = true ∨ declares optional key = true) :
    ∃ c, n.Meets root (.node c) ∧ c.value = member ∧ c.tag = none ∧
      c.place.depth = n.place.depth ∧
      DeclaredBy required optional key c.schema := by
  rcases hdeclared with hdeclared | hdeclared
  · obtain ⟨s, hs⟩ := declares_iff_exists.1 hdeclared
    obtain ⟨schemas, rfl, hkey⟩ := Option.bind_eq_some_iff.1 hs
    exact ⟨_, .required hform hvalue hkey hmember, rfl, rfl, rfl, .inl hs⟩
  · obtain ⟨s, hs⟩ := declares_iff_exists.1 hdeclared
    obtain ⟨schemas, rfl, hkey⟩ := Option.bind_eq_some_iff.1 hs
    exact ⟨_, .optional hform hvalue hkey hmember, rfl, rfl, rfl, .inr hs⟩

/-- A member that the looser schema declares, and that the object has, is
declared by the other schema too: a new one could only be the tag, which the
looser schema does not declare. -/
theorem Looser.declared (hlooser : Looser root' n n')
    (hquiet : n.Quiet limits root)
    (hform : n.schema.form = .properties required optional additional)
    (hform' : n'.schema.form = .properties required' optional' additional')
    (hkeys : LoosensKeys required optional additional required'
      optional' additional')
    (hvalue : n.value = .obj members) (hmember : members.contains key = true)
    (hdeclared : declares required' key = true ∨
      declares optional' key = true) :
    declares required key = true ∨ declares optional key = true := by
  rcases hdeclared with hdeclared | hdeclared
  · exact .inl (hkeys.demanded key hdeclared)
  · rcases hkeys.added key hdeclared with hkey | hkey | rfl
    · exact .inl hkey
    · exact .inr hkey
    · rcases declared_of_not_clash hquiet.clash hform hvalue hmember with
        hkey | hkey | htag
      · exact .inl hkey
      · exact .inr hkey
      · have huntagged :=
          hlooser.untagged key _ _ _ (hlooser.tag.trans htag) hform'
        rw [huntagged.2] at hdeclared
        cases hdeclared

/-- A member that the object has is known to the looser schema, if it lets no
others in. -/
theorem Looser.isDeclared (hlooser : Looser root' n n')
    (hquiet : n.Quiet limits root)
    (hform : n.schema.form = .properties required optional additional)
    (hkeys : LoosensKeys required optional additional required' optional' false)
    (hvalue : n.value = .obj members) (hmember : members.contains key = true) :
    SchemaForms.isDeclared required' optional' n'.tag key = true := by
  have hold : declares required key = true ∨ declares optional key = true ∨
      n.tag = some key := by
    cases additional with
    | true => cases hkeys.others rfl
    | false => exact declared_of_not_clash hquiet.clash hform hvalue hmember
  rw [isDeclared_eq_true_iff, hlooser.tag]
  rw [← or_assoc] at hold ⊢
  refine hold.imp_left ?_
  intro hdeclared
  rcases hkeys.dropped key hdeclared with hkey | hkey | hothers
  · exact .inl hkey
  · exact .inr hkey
  · cases hothers

/-- A declared member of the looser schema is met by the other one too. -/
theorem Looser.member (hlooser : Looser root' n n')
    (hquiet : n.Quiet limits root)
    (hform : n.schema.form = .properties required optional additional)
    (hform' : n'.schema.form = .properties required' optional' additional')
    (hkeys : LoosensKeys required optional additional required'
      optional' additional')
    (hmembers : ∀ key s t, DeclaredBy required optional key s →
      DeclaredBy required' optional' key t → s.form.Loosens t.form)
    (hvalue : n.value = .obj members)
    (hmember : members.get? key = some c'.value)
    (hdeclared : DeclaredBy required' optional' key c'.schema)
    (htag : c'.tag = none) (hdepth : c'.place.depth = n'.place.depth)
    (hmeets : n'.Meets root' (.node c')) : Matched root root' n (.node c') := by
  have hnew : declares required' key = true ∨ declares optional' key = true :=
    hdeclared.imp (fun h => declares_iff_exists.2 ⟨_, h⟩) fun h =>
      declares_iff_exists.2 ⟨_, h⟩
  have hold := hlooser.declared hquiet hform hform' hkeys hvalue
    (Entries.contains_iff.2 ⟨_, hmember⟩) hnew
  obtain ⟨c, hc, hcvalue, hctag, hcdepth, hcdeclared⟩ :=
    exists_meets_of_declared hform hvalue hmember hold
  exact ⟨c, c', rfl, hc,
    hlooser.below hmeets hcvalue.symm hctag htag hcdepth hdepth
    (hmembers key _ _ hcdeclared hdeclared)⟩

theorem Looser.properties (hlooser : Looser root' n n')
    (hquiet : n.Quiet limits root)
    (hform : n.schema.form = .properties required optional additional)
    (hform' : n'.schema.form = .properties required' optional' additional')
    (hkeys : LoosensKeys required optional additional required'
      optional' additional')
    (hmembers : ∀ key s t, DeclaredBy required optional key s →
      DeclaredBy required' optional' key t → s.form.Loosens t.form)
    (hmeets : n'.Meets root' part) : Matched root root' n part := by
  obtain ⟨members, hvalue⟩ :=
    exists_eq_of_not_clash hquiet.clash (Meets.notObject hform)
  have hsame : n'.value = .obj members := hlooser.value.trans hvalue
  cases hmeets with
  | notObject _ hno => exact absurd hsame (hno members)
  | missing hrequired hobj hkey hmissing =>
      cases hform'.symm.trans hrequired
      cases hsame.symm.trans hobj
      have hcontains :=
        contains_of_not_clash hquiet.clash hform hvalue (hkeys.demanded _ hkey)
      obtain ⟨member, hmember⟩ := Entries.contains_iff.1 hcontains
      cases hmember.symm.trans hmissing
  | required hrequired hobj hkey hmember =>
      cases hform'.symm.trans hrequired
      cases hsame.symm.trans hobj
      exact hlooser.member hquiet hform hform' hkeys hmembers hvalue hmember
        (.inl hkey) rfl rfl (.required hrequired hobj hkey hmember)
  | optional hoptional hobj hkey hmember =>
      cases hform'.symm.trans hoptional
      cases hsame.symm.trans hobj
      exact hlooser.member hquiet hform hform' hkeys hmembers hvalue hmember
        (.inr hkey) rfl rfl (.optional hoptional hobj hkey hmember)
  | undeclared hclosed hobj hmember hkey =>
      cases hform'.symm.trans hclosed
      cases hsame.symm.trans hobj
      have hdeclared := hlooser.isDeclared hquiet hform hkeys hvalue hmember
      cases hdeclared.symm.trans hkey
  | _ => simp_all

end

/-- What the looser schema meets is a node, and the other schema meets a node of
which that one is the looser one. -/
theorem Looser.meets (hlooser : Looser root' n n')
    (hrelaxes : root.Relaxes root') (hchecked : root'.issues = [])
    (hquiet : n.Quiet limits root) (hmeets : n'.Meets root' part) :
    Matched root root' n part := by
  have hloosens := hlooser.form
  generalize hform : n.schema.form = form at hloosens
  generalize hform' : n'.schema.form = form' at hloosens
  cases hloosens with
  | empty => cases hmeets <;> simp_all
  | ref => exact hlooser.target hrelaxes hquiet hform hform' hmeets
  | type hwidens => exact hlooser.type hquiet hform hform' hwidens hmeets
  | enum hvalues => exact hlooser.enum hquiet hform hform' hvalues hmeets
  | string => exact hlooser.string hquiet hform hform' hmeets
  | elements hitems => exact hlooser.items hquiet hform hform' hitems hmeets
  | values hmembers => exact hlooser.members hquiet hform hform' hmembers hmeets
  | properties hkeys hmembers =>
      exact hlooser.properties hquiet hform hform' hkeys hmembers hmeets
  | discriminator hkept hbranches =>
      exact hlooser.branch hquiet hchecked hform hform' hkept hbranches hmeets

theorem Looser.tooDeep_eq_false (hlooser : Looser root' n n')
    (hdeep : n.tooDeep limits = false) :
    n'.tooDeep limits = false := by
  have hloosens := hlooser.form
  unfold tooDeep at hdeep ⊢
  generalize n.schema.form = form at hloosens hdeep
  generalize n'.schema.form = form' at hloosens ⊢
  cases hloosens with
  | ref =>
      rw [hlooser.depth]
      exact hdeep
  | _ => rfl

theorem Looser.passes (hlooser : Looser root' n n')
    (hrelaxes : root.Relaxes root') (hchecked : root'.issues = [])
    (hpasses : n.Passes limits root) : n'.Passes limits root' := by
  induction hpasses generalizing n' with
  | @intro n hquiet _ ih =>
      apply Passes.of_meets (hlooser.tooDeep_eq_false hquiet.deep)
      intro part hmeets
      obtain ⟨c, c', rfl, hc, hclooser⟩ :=
        hlooser.meets hrelaxes hchecked hquiet hmeets
      exact ⟨c', rfl, ih c hc hclooser⟩

end Node

/-- An instance in which a validation finds nothing is accepted by every looser
schema that is checked, under the same limits. -/
theorem validate_of_relaxes {schema looser : Schema}
    (hrelaxes : schema.Relaxes looser) (hchecked : looser.check = .ok ())
    (value : Json) (limits : Limits)
    (hvalid : validate limits schema value = .ok []) :
    validate limits looser value = .ok [] := by
  rw [validate_eq_nil_iff_passes] at hvalid ⊢
  have hlooser := Node.Looser.start hrelaxes value
  exact hlooser.passes hrelaxes (Schema.check_eq_ok_iff.1 hchecked) hvalid

/-- Events by their kind: one of them has a size, and nothing else. -/
def sizedEvents : Schema :=
  ⟨some (KeyMap.ofList [("event", .ofForm (.discriminator "kind" (KeyMap.ofList
      [("made", .ofForm
        (.properties (some (KeyMap.ofList [("size", .ofForm (.type .uint8))]))
        none false))])))]),
    .elements (.ofForm (.ref "event"))⟩

/-- The size may be missing and be any number, there may be a note beside it,
and there is one more kind of events. -/
def looserEvents : Schema :=
  ⟨some (KeyMap.ofList [("event", .ofForm (.discriminator "kind" (KeyMap.ofList
      [("lost", .ofForm (.properties none none true)),
        ("made", .ofForm (.properties none (some (KeyMap.ofList
          [("note", .ofForm (.type .string)),
            ("size", .ofForm (.type .float64))])) false))]))),
      ("note", .empty)]),
    .elements (.ofForm (.ref "event"))⟩

/-- Two events with a size. -/
def madeEvents : Json :=
  .arr [.object [("kind", .str "made"), ("size", .num (.int 3))],
    .object [("kind", .str "made"), ("size", .num (.int 255))]]

theorem sizedEvents_relaxes : sizedEvents.Relaxes looserEvents := by
  have hmade : Form.Loosens
      (.properties (some (KeyMap.ofList [("size", .ofForm (.type .uint8))]))
        none false)
      (.properties none (some (KeyMap.ofList
        [("note", .ofForm (.type .string)),
          ("size", .ofForm (.type .float64))])) false) := by
    have hsize : ∀ key s,
        (KeyMap.ofList [("size", Schema.ofForm (.type .uint8))]).get? key =
        some s →
        key = "size" ∧ s = .ofForm (.type .uint8) := by
      intro key s hkey
      simpa using List.mem_singleton.1 (Entries.get?_eq_some_iff.1 hkey)
    refine .properties ⟨id, nofun, fun key _ => .inr (.inr rfl), ?_⟩ ?_
    · rintro key (hkey | hkey)
      · obtain ⟨s, hs⟩ := Entries.contains_iff.1 hkey
        obtain ⟨rfl, -⟩ := hsize key s hs
        exact .inr (.inl rfl)
      · cases hkey
    · rintro key s t (hs | hs) ht
      · obtain ⟨rfl, rfl⟩ := hsize key s hs
        rcases ht with ht | ht
        · cases ht
        · cases ht
          exact .type (.float (.inl rfl) (.inr rfl))
      · cases hs
  refine ⟨.elements .ref, ?_⟩
  intro name s hname
  have hevent := List.mem_singleton.1 (Entries.get?_eq_some_iff.1 hname)
  cases hevent
  refine ⟨_, rfl, .discriminator ?_ ?_⟩
  · intro branch hbranch
    obtain ⟨s, hs⟩ := Entries.contains_iff.1 hbranch
    cases List.mem_singleton.1 (Entries.get?_eq_some_iff.1 hs)
    rfl
  · intro branch s t hs ht
    cases List.mem_singleton.1 (Entries.get?_eq_some_iff.1 hs)
    cases ht
    exact hmade

theorem validate_of_relaxes_madeEvents :
    sizedEvents.Relaxes looserEvents ∧ looserEvents.check = .ok () ∧
      validate ⟨1, 2⟩ sizedEvents madeEvents = .ok [] ∧
      validate ⟨1, 2⟩ looserEvents madeEvents = .ok [] := by
  have hchecked : looserEvents.check = .ok () := by decide +kernel
  have hvalid : validate ⟨1, 2⟩ sizedEvents madeEvents = .ok [] := by
    decide +kernel
  exact ⟨sizedEvents_relaxes, hchecked, hvalid,
    validate_of_relaxes sizedEvents_relaxes hchecked madeEvents ⟨1, 2⟩ hvalid⟩

end SchemaForms
