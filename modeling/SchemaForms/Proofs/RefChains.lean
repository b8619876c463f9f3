import SchemaForms.Proofs.Checked
import SchemaForms.Proofs.DepthLimit
/-!
Refs that chase refs.  A definition that is itself a ref passes the value on as
it is, so a circle of such definitions goes round for ever; every other way from
a definition back to itself takes a part of the instance away.  In a checked
schema without such a circle, no value is inside more active refs than the
definitions that it and the values around it can enter (`Node.LeadsTo.passed`),
and a limit of so many is never met; a root that leads into a circle meets every
limit (`validate_refChains`).
-/

namespace SchemaForms

/-- The definition of a name is itself a ref, to the next name. -/
def Schema.Chases (root : Schema) (name next : String) : Prop :=
  ∃ definition, root.definition? name = some definition ∧
    definition.form = .ref next

/-- How many refs can be active around a value of this height: every definition
once for each part of the instance that is at most so high. -/
def Schema.room (root : Schema) (height : Nat) : Nat :=
  (root.definitions.getD .nil).size * (height + 1)

/-- The definitions that a validation has entered with the value of a node, when
it started with the value of `s`.  Each of them leads to the ref at the node, if
the node is one, by refs only. -/
structure Node.Passed (root : Schema) (s n : Node) (names : Finset String) :
    Prop where
  defined : ∀ name ∈ names, (root.definition? name).isSome = true
  chased : ∀ next, n.schema.form = .ref next → ∀ name ∈ names,
    Relation.TransGen root.Chases name next
  depth_le : n.place.depth + root.room n.value.height ≤
    names.card + root.room s.value.height

namespace Node

variable {root : Schema} {s n c : Node} {names : Finset String} {name : String}

theorem Passed.start (hdepth : s.place.depth = 0) : Passed root s s ∅ := by
  refine ⟨by simp, by simp, ?_⟩
  rw [hdepth, Finset.card_empty]

/-- Where no definition chases itself, a ref leads to a definition that the
value is not inside yet. -/
theorem Passed.not_mem (hpassed : Passed root s n names)
    (hacyclic : ∀ name, ¬ Relation.TransGen root.Chases name name)
    (hform : n.schema.form = .ref name) :
    name ∉ names :=
  fun hname => hacyclic name (hpassed.chased name hform name hname)

/-- A ref takes the value into one more definition. -/
theorem Passed.target (hpassed : Passed root s n names)
    (hacyclic : ∀ name, ¬ Relation.TransGen root.Chases name name)
    {target : Schema} (hform : n.schema.form = .ref name)
    (htarget : root.definition? name = some target) :
    Passed root s ⟨n.place.atDefinition name, target, n.value, none⟩
      (insert name names) := by
  constructor
  · intro other hother
    rcases Finset.mem_insert.1 hother with rfl | hother
    · simp [htarget]
    · exact hpassed.defined other hother
  · intro next hnext other hother
    have hchases : root.Chases name next := ⟨target, htarget, hnext⟩
    rcases Finset.mem_insert.1 hother with rfl | hother
    · exact .single hchases
    · exact .tail (hpassed.chased name hform other hother) hchases
  · have hle := hpassed.depth_le
    rw [Finset.card_insert_of_notMem (hpassed.not_mem hacyclic hform)]
    simp only [Place.atDefinition]
    omega

/-- A smaller value is inside no definition yet, and gives room for all of
them. -/
theorem Passed.smaller (hpassed : Passed root s n names)
    (hdepth : c.place.depth = n.place.depth)
    (hlt : c.value.height < n.value.height) : Passed root s c ∅ := by
  refine ⟨by simp, by simp, ?_⟩
  have hle := hpassed.depth_le
  have hcard := Schema.card_le_of_defined hpassed.defined
  have hroom : root.room c.value.height + (root.definitions.getD .nil).size ≤
      root.room n.value.height := by
    rw [Schema.room, ← Nat.mul_succ]
    exact Nat.mul_le_mul_left _ (Nat.succ_lt_succ hlt)
  rw [hdepth, Finset.card_empty]
  omega

/-- A branch goes on with the same value, but is no ref. -/
theorem Passed.branch (hpassed : Passed root s n names)
    (hdepth : c.place.depth = n.place.depth) (hvalue : c.value = n.value)
    (hform : ∀ name, c.schema.form ≠ .ref name) :
    Passed root s c names := by
  refine ⟨hpassed.defined, fun next hnext => absurd hnext (hform next), ?_⟩
  rw [hdepth, hvalue]
  exact hpassed.depth_le

theorem Meets.passed (hmeets : n.Meets root (.node c))
    (hchecked : root.check = .ok ())
    (hacyclic : ∀ name, ¬ Relation.TransGen root.Chases name name)
    (hwalked : root.Walked n.place.schemaPath n.schema)
    (hpassed : Passed root s n names) :
    ∃ names, Passed root s c names := by
  cases hmeets with
  | target hform htarget => exact ⟨_, hpassed.target hacyclic hform htarget⟩
  | branch hform hvalue htag hbranch =>
      obtain ⟨required, optional, additional, hproperties, -⟩ :=
        hwalked.exists_properties (Schema.check_eq_ok_iff.1 hchecked)
          hform hbranch
      exact ⟨names, hpassed.branch rfl rfl (by simp [hproperties])⟩
  | item hform hvalue hitem =>
      exact ⟨∅, hpassed.smaller rfl
        (hvalue ▸ Json.height_lt_arr (List.mem_of_getElem? hitem))⟩
  | member hform hvalue hmember =>
      exact ⟨∅, hpassed.smaller rfl (hvalue ▸ Json.height_lt_obj hmember)⟩
  | required hform hvalue hkey hmember =>
      exact ⟨∅, hpassed.smaller rfl (hvalue ▸ Json.height_lt_obj hmember)⟩
  | optional hform hvalue hkey hmember =>
      exact ⟨∅, hpassed.smaller rfl (hvalue ▸ Json.height_lt_obj hmember)⟩

theorem LeadsTo.passed (hleads : s.LeadsTo root n)
    (hchecked : root.check = .ok ())
    (hacyclic : ∀ name, ¬ Relation.TransGen root.Chases name name)
    (hwalked : root.Walked s.place.schemaPath s.schema)
    (hdepth : s.place.depth = 0) :
    ∃ names, Passed root s n names := by
  induction hleads with
  | refl => exact ⟨∅, .start hdepth⟩
  | tail hleads hmeets ih =>
      obtain ⟨names, hpassed⟩ := ih
      exact hmeets.passed hchecked hacyclic
        (LeadsTo.walked hleads hwalked) hpassed

/-- There is room for a ref that leads somewhere, as its definition is not
entered yet. -/
theorem Passed.depth_lt (hpassed : Passed root s n names)
    (hacyclic : ∀ name, ¬ Relation.TransGen root.Chases name name)
    {target : Schema} (hform : n.schema.form = .ref name)
    (htarget : root.definition? name = some target) :
    n.place.depth < root.room s.value.height := by
  have hpassed' := hpassed.target hacyclic hform htarget
  have hcard := Schema.card_le_of_defined hpassed'.defined
  have hle := hpassed'.depth_le
  have hroom : (root.definitions.getD .nil).size ≤ root.room n.value.height :=
    Nat.le_mul_of_pos_right _ (Nat.succ_pos _)
  simp only [Place.atDefinition] at hle
  omega

end Node

section

variable {schema : Schema} {value : Json} {limits : Limits} {depth errors : Nat}
  {name : String}

/-- In a checked schema without such a circle, no ref stands inside more others
than there is room for. -/
theorem Agenda.not_refInside (hchecked : schema.check = .ok ())
    (hacyclic : ∀ name, ¬ Relation.TransGen schema.Chases name name)
    (hroom : schema.room value.height ≤ depth) :
    ¬ Agenda.RefInside limits schema value depth := by
  intro hinside
  obtain ⟨n, todo, found, name, hreach, hform, hdepth⟩ :=
    Agenda.refInside_iff.1 hinside
  have hleads : (Node.start schema value).LeadsTo schema n :=
    Agenda.Reaches.leadsTo hreach List.mem_cons_self
  have hwalked := hleads.walked (.start schema)
  cases htarget : schema.definition? name with
  | none =>
      obtain ⟨issue, hissue, -⟩ :=
        (Node.Meets.dangling hform htarget).exists_unknownRef hwalked
      rw [Schema.check_eq_ok_iff.1 hchecked] at hissue
      cases hissue
  | some target =>
      obtain ⟨names, hpassed⟩ :=
        hleads.passed hchecked hacyclic (.start schema) rfl
      have hlt : n.place.depth < schema.room value.height :=
        hpassed.depth_lt hacyclic hform htarget
      omega

/-- A validation that meets neither its limit nor a ref to nothing has a list of
violations. -/
theorem exists_validate_eq_ok (hchecked : schema.check = .ok ())
    (hpos : 0 < depth)
    (hinside : ¬ Agenda.RefInside ⟨0, errors⟩ schema value depth) :
    ∃ found, validate ⟨depth, errors⟩ schema value = .ok found := by
  cases hresult : validate ⟨depth, errors⟩ schema value with
  | ok found => exact ⟨found, rfl⟩
  | error failure =>
      cases failure with
      | maxDepthExceeded limit =>
          obtain rfl : limit = depth :=
            (Agenda.validate_eq_maxDepthExceeded_iff.1 hresult).1
          exact absurd ((validate_eq_maxDepthExceeded_iff_refInside hpos
            (.inr rfl)).1 hresult) hinside
      | unresolvedRef name =>
          exact absurd hresult
            (validate_ne_unresolvedRef (Schema.check_eq_ok_iff.1 hchecked))
      | endless => exact absurd hresult (validate_ne_endless hpos)

/-- The refs from a name on lead into a circle. -/
def Schema.Circles (root : Schema) (name : String) : Prop :=
  ∃ loop, Relation.ReflTransGen root.Chases name loop ∧
    Relation.TransGen root.Chases loop loop

theorem Schema.Circles.exists_next (hcircles : schema.Circles name) :
    ∃ next, schema.Chases name next ∧ schema.Circles next := by
  obtain ⟨loop, hlead, hloop⟩ := hcircles
  rcases hlead.cases_head with rfl | ⟨next, hchases, hlead⟩
  · obtain ⟨next, hchases, hback⟩ := Relation.TransGen.head'_iff.1 hloop
    exact ⟨next, hchases, name, hback, hloop⟩
  · exact ⟨next, hchases, loop, hlead, hloop⟩

/-- A ref into a circle goes round until as many refs are active as may be. -/
theorem Agenda.ends_of_circles (hpos : 0 < limits.maxDepth) {n : Node}
    (hform : n.schema.form = .ref name) (hcircles : schema.Circles name)
    (hdepth : n.place.depth ≤ limits.maxDepth) (found : List Violation) :
    Agenda.Ends limits schema ⟨[.node n], found⟩ found
      (some .depthExceeded) := by
  induction hleft : limits.maxDepth - n.place.depth generalizing n name with
  | zero =>
      have hdeep : n.tooDeep limits = true :=
        Node.tooDeep_iff.2 ⟨⟨name, hform⟩, hpos, Nat.le_of_sub_eq_zero hleft⟩
      exact .stop (.depthExceeded hdeep)
  | succ left ih =>
      have hdeep : n.tooDeep limits = false := by
        rw [← Bool.not_eq_true, Node.tooDeep_iff]
        rintro ⟨-, -, hle⟩
        omega
      obtain ⟨next, ⟨target, htarget, hnext⟩, hcircles'⟩ := hcircles.exists_next
      refine .step (.enter hdeep) ?_
      rw [Node.parts_ref hform htarget]
      apply ih hnext hcircles'
      · simp only [Node.entry, Place.atDefinition]
        omega
      · simp only [Node.entry, Place.atDefinition]
        omega

theorem validate_of_circles (hform : schema.form = .ref name)
    (hcircles : schema.Circles name) (hpos : 0 < depth) :
    validate ⟨depth, errors⟩ schema value =
      .error (.maxDepthExceeded depth) := by
  have hends : Agenda.Ends ⟨depth, errors⟩ schema (.start schema value) []
      (some .depthExceeded) :=
    Agenda.ends_of_circles hpos hform hcircles (Nat.zero_le depth) []
  exact Agenda.validate_of_ends hends

/-- Without a circle of refs, a limit that has room for every definition and
every part of the instance is never met, and changes nothing; behind a ref into
such a circle, every limit is met, whatever the instance is. -/
theorem validate_refChains (schema : Schema) :
    (schema.check = .ok () →
      (∀ name, ¬ Relation.TransGen schema.Chases name name) →
      ∀ value depth errors,
        max 1 ((schema.definitions.getD .nil).size * (value.height + 1)) ≤
          depth →
          ∃ found, validate ⟨depth, errors⟩ schema value = .ok found ∧
            validate ⟨0, errors⟩ schema value = .ok found) ∧
    ∀ first loop, schema.form = .ref first →
      Relation.ReflTransGen schema.Chases first loop →
      Relation.TransGen schema.Chases loop loop → ∀ value depth errors,
        0 < depth →
        validate ⟨depth, errors⟩ schema value =
          .error (.maxDepthExceeded depth) := by
  constructor
  · intro hchecked hacyclic value depth errors hdepth
    have hpos : 0 < depth := Nat.le_trans (Nat.le_max_left _ _) hdepth
    have hroom : schema.room value.height ≤ depth :=
      Nat.le_trans (Nat.le_max_right _ _) hdepth
    have hinside : ¬ Agenda.RefInside ⟨0, errors⟩ schema value depth :=
      Agenda.not_refInside hchecked hacyclic hroom
    obtain ⟨found, hfound⟩ := exists_validate_eq_ok hchecked hpos hinside
    have hsame := validate_eq_of_not_refInside hpos (.inr rfl) hinside
    exact ⟨found, hfound, hsame.symm.trans hfound⟩
  · intro first loop hform hlead hloop value depth errors hpos
    exact validate_of_circles hform ⟨loop, hlead, hloop⟩ hpos

/-- Trees whose children are trees by another name: an inner node has children,
and a leaf has none. -/
def aliasedTree : Schema :=
  ⟨some (KeyMap.ofList [("child", .ofForm (.ref "tree")),
    ("tree", .ofForm (.discriminator "kind" (KeyMap.ofList
      [("inner", .ofForm (.properties
        (some (KeyMap.ofList
          [("children", .ofForm (.elements (.ofForm (.ref "child"))))])) none
          false)),
      ("leaf", .ofForm (.properties none (some .nil) false))])))]),
    .ref "child"⟩

/-- Two definitions that are refs to each other. -/
def refCircle : Schema :=
  ⟨some (KeyMap.ofList [("first", .ofForm (.ref "second")),
    ("second", .ofForm (.ref "first"))]),
    .ref "first"⟩

theorem eq_of_aliasedTree_chases {next : String}
    (hchases : aliasedTree.Chases name next) :
    name = "child" ∧ next = "tree" := by
  obtain ⟨definition, hname, hform⟩ := hchases
  rw [Schema.definition?, aliasedTree, Option.bind_some, KeyMap.get?_ofList]
    at hname
  by_cases hchild : name = "child"
  · subst hchild
    cases hname
    cases hform
    exact ⟨rfl, rfl⟩
  · by_cases htree : name = "tree"
    · subst htree
      cases hname
      cases hform
    · simp [List.lookup_cons, beq_false_of_ne hchild, beq_false_of_ne htree]
        at hname

/-- A tree with two leaves, one of which has no right kind. -/
def oddLeaf : Json :=
  .object [("kind", .str "inner"), ("children", .arr
    [.object [("kind", .str "leaf")], .object [("kind", .null)]])]

/-- A limit of eight nested refs is enough for a tree of two levels, and none is
for a circle. -/
theorem validate_refChains_aliasedTree :
    aliasedTree.check = .ok () ∧
    (∀ name, ¬ Relation.TransGen aliasedTree.Chases name name) ∧
      oddLeaf.height = 3 ∧
      (∃ found, validate ⟨8, 1⟩ aliasedTree oddLeaf = .ok found ∧
        validate ⟨0, 1⟩ aliasedTree oddLeaf = .ok found) ∧
      Relation.TransGen refCircle.Chases "second" "second" ∧
      validate ⟨5, 0⟩ refCircle .null = .error (.maxDepthExceeded 5) := by
  have hchecked : aliasedTree.check = .ok () := by decide +kernel
  have hacyclic : ∀ name, ¬ Relation.TransGen aliasedTree.Chases name name := by
    intro name hloop
    obtain ⟨next, hfirst, -⟩ := Relation.TransGen.head'_iff.1 hloop
    obtain ⟨before, -, hlast⟩ := Relation.TransGen.tail'_iff.1 hloop
    have hchild := (eq_of_aliasedTree_chases hfirst).1
    have htree := (eq_of_aliasedTree_chases hlast).2
    exact absurd (hchild.symm.trans htree) (by decide)
  have hback : refCircle.Chases "second" "first" := ⟨_, rfl, rfl⟩
  have hforth : refCircle.Chases "first" "second" := ⟨_, rfl, rfl⟩
  have hloop : Relation.TransGen refCircle.Chases "second" "second" :=
    .tail (.single hback) hforth
  refine ⟨hchecked, hacyclic, by decide +kernel, ?_, hloop, ?_⟩
  · exact (validate_refChains aliasedTree).1 hchecked hacyclic oddLeaf 8 1
      (by decide +kernel)
  · exact (validate_refChains refCircle).2 "first" "second" rfl
      (.single hforth) hloop .null 5 0 (by decide)

end

end SchemaForms
