import SchemaForms.Schema.Issue
import SchemaForms.Proofs.SideBySide
import SchemaForms.Proofs.DepthLimit
/-!
Two nodes side by side, part by part.  Where two nodes stand at places that go
together and demand alike of their values, their parts come in pairs, list by
list: the items, the members and the branch of the one with those of the other.
Two forms of one shape, over schemas that are related in pairs, demand alike of
one value (`Form.Congruent.parts_paired`).
-/

namespace SchemaForms

section

variable {α β : Type} {R S : α → α → Prop} {a b : Option α}

theorem rel_refl (hrefl : ∀ x, R x x) (a : Option α) : Option.Rel R a a := by
  cases a with
  | none => exact .none
  | some x => exact .some (hrefl x)

theorem rel_imp (himp : ∀ x y, R x y → S x y) (hrel : Option.Rel R a b) :
    Option.Rel S a b := by
  cases hrel with
  | none => exact .none
  | some h => exact .some (himp _ _ h)

/-- Values that a function takes to the same one, if both are there, or two
missing ones. -/
theorem rel_of_map_eq {f : α → β} (hmap : a.map f = b.map f) :
    Option.Rel (fun x y => f x = f y) a b := by
  cases a with
  | none =>
      cases b with
      | none => exact .none
      | some y => cases hmap
  | some x =>
      cases b with
      | none => cases hmap
      | some y => exact .some (Option.some.inj hmap)

end

/-- Lists in strictly ascending order are told by their members. -/
theorem eq_of_pairwise_lt {keys keys' : List String}
    (hkeys : keys.Pairwise (· < ·)) (hkeys' : keys'.Pairwise (· < ·))
    (hmem : ∀ key, key ∈ keys ↔ key ∈ keys') : keys = keys' := by
  have hnodup : keys.Nodup := hkeys.imp String.ne_of_lt
  have hnodup' : keys'.Nodup := hkeys'.imp String.ne_of_lt
  have hperm : keys.Perm keys' :=
    (List.perm_ext_iff_of_nodup hnodup hnodup').2 hmem
  exact hperm.eq_of_pairwise
    (fun _ _ _ _ hlt hgt => absurd hgt (String.lt_asymm hlt)) hkeys hkeys'

namespace Entries

variable {α β : Type} {lo lo' : Option String} {m : Entries α lo}
  {m' : Entries β lo'}

theorem pairwise_keys (m : Entries α lo) : m.keys.Pairwise (· < ·) := by
  rw [keys, List.pairwise_map]
  exact m.toList_pairwise

theorem contains_eq_of_keys_eq (hkeys : m.keys = m'.keys) (key : String) :
    m.contains key = m'.contains key := by
  rw [Bool.eq_iff_iff, ← mem_keys_iff, ← mem_keys_iff, hkeys]

/-- The keys that are chosen from two maps are the same when the same keys are
bound and chosen. -/
theorem filter_keys_eq {p p' : String → Bool}
    (hkeys : ∀ key, m.contains key = true ∧ p key = true ↔
      m'.contains key = true ∧ p' key = true) :
    m.keys.filter p = m'.keys.filter p' := by
  apply eq_of_pairwise_lt (m.pairwise_keys.filter p)
    (m'.pairwise_keys.filter p')
  intro key
  rw [List.mem_filter, List.mem_filter, mem_keys_iff, mem_keys_iff]
  exact hkeys key

/-- A key that both maps bind, or none of them, is bound to related values. -/
theorem rel_get? {R : α → β → Prop} {key : String}
    (hkey : m.contains key = m'.contains key)
    (hvalues : ∀ a b, m.get? key = some a → m'.get? key = some b → R a b) :
    Option.Rel R (m.get? key) (m'.get? key) := by
  unfold contains at hkey
  cases ha : m.get? key with
  | none =>
      cases hb : m'.get? key with
      | none => exact .none
      | some b => simp [ha, hb] at hkey
  | some a =>
      cases hb : m'.get? key with
      | none => simp [ha, hb] at hkey
      | some b => exact .some (hvalues a b ha hb)

/-- The entries of two maps with the same keys come in pairs. -/
theorem forall₂_toList {R : String × α → String × β → Prop}
    (hkeys : m.keys = m'.keys) (hvalues : ∀ key a b, m.get? key = some a →
      m'.get? key = some b → R (key, a) (key, b)) :
    List.Forall₂ R m.toList m'.toList := by
  induction m generalizing lo' with
  | nil =>
      cases m' with
      | nil => exact .nil
      | cons => cases hkeys
  | cons key above value rest ih =>
      cases m' with
      | nil => cases hkeys
      | cons key' above' value' rest' =>
          obtain ⟨rfl, hrest⟩ := List.cons.inj hkeys
          refine .cons (hvalues key value value' (by simp) (by simp))
            (ih hrest ?_)
          intro other a b ha hb
          exact hvalues other a b (get?_cons_of_rest ha) (get?_cons_of_rest hb)

end Entries

/-- Places that go together do so at every step down, and their violations are
told together. -/
structure Place.Together (places : Place → Place → Prop)
    (same : Violation → Violation → Prop) :
    Prop where
  underInstance : ∀ {place place' : Place}, places place place' → ∀ token,
    places (place.underInstance token) (place'.underInstance token)
  underSchema : ∀ {place place' : Place}, places place place' → ∀ token,
    places (place.underSchema token) (place'.underSchema token)
  atDefinition : ∀ {place place' : Place}, places place place' → ∀ name,
    places (place.atDefinition name) (place'.atDefinition name)
  violation : ∀ {place place' : Place}, places place place' →
    same place.violation place'.violation

/-- The same place, or what is the same about it for the violations. -/
theorem Place.together_eq {same : Violation → Violation → Prop}
    (hsame : ∀ v, same v v) :
    Together Eq same :=
  ⟨fun hplace _ => by rw [hplace], fun hplace _ => by rw [hplace],
    fun hplace _ => by rw [hplace], fun hplace => hplace ▸ hsame _⟩

/-- Two nodes at places that go together, with the same tag, of which the
schemas demand alike of the values. -/
structure Node.Matches (places : Place → Place → Prop)
    (like : Option String → Schema → Json → Schema → Json → Prop)
    (n n' : Node) : Prop where
  place : places n.place n'.place
  tag : n'.tag = n.tag
  like : like n.tag n.schema n.value n'.schema n'.value

/-- Two maps of schemas declare the same members, of which two objects have the
same ones; and what they demand of these is alike. -/
structure DeclareAlike
    (like : Option String → Schema → Json → Schema → Json → Prop)
    (schemas schemas' : KeyMap Schema) (members members' : KeyMap Json) :
    Prop where
  keys : schemas.keys = schemas'.keys
  members : ∀ key s s', schemas.get? key = some s →
    schemas'.get? key = some s' →
    Option.Rel (fun member member' => like none s member s' member')
      (members.get? key) (members'.get? key)

/-- What holds of the nodes of one side may be said of the pairs too. -/
theorem Part.forall₂_and {P : Node → Prop} {pairs : Node → Node → Prop}
    {same : Violation → Violation → Prop} {parts parts' : List Part}
    (hparts : List.Forall₂ (Part.Paired pairs same) parts parts')
    (hnodes : ∀ c, .node c ∈ parts → P c) :
    List.Forall₂ (Part.Paired (fun n n' => P n ∧ pairs n n') same)
      parts parts' := by
  induction hparts with
  | nil => exact .nil
  | cons hpart _ ih =>
      refine .cons ?_ (ih fun c hc => hnodes c (List.mem_cons_of_mem _ hc))
      cases hpart with
      | clash hsame => exact .clash hsame
      | dangling => exact .dangling
      | node hpair => exact .node ⟨hnodes _ List.mem_cons_self, hpair⟩

namespace Part

variable {places : Place → Place → Prop} {same : Violation → Violation → Prop}
  {like : Option String → Schema → Json → Schema → Json → Prop}
  {place place' : Place} {s s' : Schema} {items items' : List Json}
  {members members' : KeyMap Json}

section

variable (htogether : Place.Together places same) (hplace : places place place')

include htogether hplace

theorem ofItems_paired (hlength : items.length = items'.length)
    (hitems : ∀ (index : Nat) item item', items[index]? = some item →
      items'[index]? = some item' →
      like none s item s' item') :
    List.Forall₂ (Paired (Node.Matches places like) same)
      (ofItems place s items) (ofItems place' s' items') := by
  rw [ofItems, ofItems, List.forall₂_map_left_iff, List.forall₂_map_right_iff,
    List.forall₂_iff_get]
  refine ⟨by simpa using hlength, ?_⟩
  intro index hindex hindex'
  rw [List.length_zipIdx] at hindex hindex'
  simp only [List.get_eq_getElem, List.getElem_zipIdx, Nat.zero_add]
  refine .node ⟨htogether.underInstance hplace _, rfl, ?_⟩
  exact hitems index _ _ (List.getElem?_eq_getElem hindex)
    (List.getElem?_eq_getElem hindex')

theorem ofMembers_paired (hkeys : members.keys = members'.keys)
    (hmembers : ∀ key member member', members.get? key = some member →
      members'.get? key = some member' → like none s member s' member') :
    List.Forall₂ (Paired (Node.Matches places like) same)
      (ofMembers place s members) (ofMembers place' s' members') := by
  rw [ofMembers, ofMembers, List.forall₂_map_left_iff,
    List.forall₂_map_right_iff]
  apply Entries.forall₂_toList hkeys
  intro key member member' hmember hmember'
  exact .node ⟨htogether.underInstance hplace key, rfl,
    hmembers key _ _ hmember hmember'⟩

variable {schemas schemas' : KeyMap Schema}

theorem ofRequired_paired
    (hschemas : DeclareAlike like schemas schemas' members members') :
    List.Forall₂ (Paired (Node.Matches places like) same)
      (ofRequired place schemas members)
      (ofRequired place' schemas' members') := by
  rw [ofRequired, ofRequired, List.forall₂_map_left_iff,
    List.forall₂_map_right_iff]
  apply Entries.forall₂_toList hschemas.keys
  intro key s s' hs hs'
  have hunder := htogether.underSchema hplace key
  have hmembers := hschemas.members key s s' hs hs'
  dsimp only
  generalize members.get? key = member at hmembers
  generalize members'.get? key = member' at hmembers
  cases hmembers with
  | none => exact .clash (htogether.violation hunder)
  | some hlike => exact .node ⟨htogether.underInstance hunder key, rfl, hlike⟩

theorem ofOptional_paired
    (hschemas : DeclareAlike like schemas schemas' members members') :
    List.Forall₂ (Paired (Node.Matches places like) same)
      (ofOptional place schemas members)
      (ofOptional place' schemas' members') := by
  rw [ofOptional, ofOptional]
  refine List.rel_filterMap (R := fun entry entry' => entry.1 = entry'.1 ∧
    Option.Rel (fun member member' => like none entry.2 member entry'.2 member')
      (members.get? entry.1) (members'.get? entry'.1)) ?_ ?_
  · rintro ⟨key, s⟩ ⟨key', s'⟩ ⟨hkey, hmembers⟩
    cases hkey
    have hunder := htogether.underSchema hplace key
    dsimp only at hmembers ⊢
    generalize members.get? key = member at hmembers
    generalize members'.get? key = member' at hmembers
    cases hmembers with
    | none => exact .none
    | some hlike =>
        exact .some (.node ⟨htogether.underInstance hunder key, rfl, hlike⟩)
  · apply Entries.forall₂_toList hschemas.keys
    intro key s s' hs hs'
    exact ⟨rfl, hschemas.members key s s' hs hs'⟩

variable {required optional required' optional' : Option (KeyMap Schema)}
  {tag : Option String}

theorem ofUndeclared_paired
    (hothers : ∀ key,
      members.contains key = true ∧
      isDeclared required optional tag key = false ↔
        members'.contains key = true ∧
          isDeclared required' optional' tag key = false) :
    List.Forall₂ (Paired (Node.Matches places like) same)
      (ofUndeclared place required optional tag members)
      (ofUndeclared place' required' optional' tag members') := by
  have hkeys :
      members.keys.filter (fun key => !isDeclared required optional tag key) =
        members'.keys.filter
          (fun key => !isDeclared required' optional' tag key) := by
      apply Entries.filter_keys_eq
      simpa using hothers
  rw [ofUndeclared, ofUndeclared, hkeys, List.forall₂_map_left_iff,
    List.forall₂_map_right_iff, List.forall₂_same]
  intro key _
  exact .clash (htogether.violation (htogether.underInstance hplace key))

theorem ofProperties_paired {additional : Bool}
    (hrequired : Option.Rel
      (fun schemas schemas' =>
        DeclareAlike like schemas schemas' members members')
      required required')
    (hoptional : Option.Rel
      (fun schemas schemas' =>
        DeclareAlike like schemas schemas' members members')
      optional optional')
    (hothers : additional = false → ∀ key,
      members.contains key = true ∧
      isDeclared required optional tag key = false ↔
        members'.contains key = true ∧
          isDeclared required' optional' tag key = false) :
    List.Forall₂ (Paired (Node.Matches places like) same)
      (ofProperties place required optional additional tag members)
      (ofProperties place' required' optional' additional tag members') := by
  unfold ofProperties
  refine List.rel_append (List.rel_append ?_ ?_) ?_
  · cases hrequired with
    | none => exact .nil
    | some hschemas =>
        exact ofRequired_paired htogether
          (htogether.underSchema hplace _) hschemas
  · cases hoptional with
    | none => exact .nil
    | some hschemas =>
        exact ofOptional_paired htogether
          (htogether.underSchema hplace _) hschemas
  · cases additional with
    | true => exact .nil
    | false => exact ofUndeclared_paired htogether hplace (hothers rfl)

end

end Part

/-- Two maps bind the same keys, and to related values. -/
structure Entries.Related {α : Type} (R : α → α → Prop) (m m' : KeyMap α) :
    Prop where
  keys : m.keys = m'.keys
  values : ∀ key a b, m.get? key = some a → m'.get? key = some b → R a b

/-- Two forms of one shape, which hold schemas that are related in pairs. -/
inductive Form.Congruent (R : Schema → Schema → Prop) : Form → Form → Prop where
  | empty : Congruent R .empty .empty
  | ref {name : String} : Congruent R (.ref name) (.ref name)
  | type {type : PrimitiveType} : Congruent R (.type type) (.type type)
  | enum {values : KeySet} : Congruent R (.enum values) (.enum values)
  | elements {s s' : Schema} (hitems : R s s') :
      Congruent R (.elements s) (.elements s')
  | properties {required optional required' optional' : Option (KeyMap Schema)}
      {additional : Bool}
      (hrequired : Option.Rel (Entries.Related R) required required')
      (hoptional : Option.Rel (Entries.Related R) optional optional') :
      Congruent R (.properties required optional additional)
        (.properties required' optional' additional)
  | values {s s' : Schema} (hmembers : R s s') :
      Congruent R (.values s) (.values s')
  | discriminator {tag : String} {mapping mapping' : KeyMap Schema}
      (hmapping : Entries.Related R mapping mapping') :
      Congruent R (.discriminator tag mapping) (.discriminator tag mapping')

/-- Related schemas demand alike of one value, whatever its tag is. -/
def Schema.OneValue (R : Schema → Schema → Prop) (_ : Option String)
    (s : Schema) (value : Json) (s' : Schema) (value' : Json) : Prop :=
  R s s' ∧ value' = value

namespace Entries.Related

variable {R : Schema → Schema → Prop} {schemas schemas' : KeyMap Schema}

theorem declareAlike (hrelated : Related R schemas schemas')
    (members : KeyMap Json) :
    DeclareAlike (Schema.OneValue R) schemas schemas' members members := by
  refine ⟨hrelated.keys, ?_⟩
  intro key s s' hs hs'
  have hrelated := hrelated.values key s s' hs hs'
  exact rel_imp (fun _ _ hsame => ⟨hrelated, hsame.symm⟩)
    (rel_refl (fun _ => rfl) (members.get? key))

theorem refl (hrefl : ∀ s, R s s) (schemas : KeyMap Schema) :
    Related R schemas schemas := by
  refine ⟨rfl, ?_⟩
  intro key s s' hs hs'
  cases hs.symm.trans hs'
  exact hrefl s

theorem contains_eq (hrelated : Related R schemas schemas') (key : String) :
    schemas.contains key = schemas'.contains key :=
  contains_eq_of_keys_eq hrelated.keys key

/-- Two related maps bind a name both, or not at all. -/
theorem get? (hrelated : Related R schemas schemas') (name : String) :
    Option.Rel R (schemas.get? name) (schemas'.get? name) :=
  rel_get? (hrelated.contains_eq name) (hrelated.values name)

end Entries.Related

section

variable {R : Schema → Schema → Prop}
  {required optional required' optional' : Option (KeyMap Schema)}

theorem declares_eq_of_related
    (hrequired : Option.Rel (Entries.Related R) required required')
    (key : String) : declares required key = declares required' key := by
  cases hrequired with
  | none => rfl
  | some hrelated => exact hrelated.contains_eq key

theorem isDeclared_eq_of_related
    (hrequired : Option.Rel (Entries.Related R) required required')
    (hoptional : Option.Rel (Entries.Related R) optional optional')
    (tag : Option String) (key : String) :
    isDeclared required optional tag key =
      isDeclared required' optional' tag key := by
  have hdeclared := declares_eq_of_related hrequired key
  have hdeclared' := declares_eq_of_related hoptional key
  unfold declares at hdeclared hdeclared'
  rw [isDeclared, isDeclared, hdeclared, hdeclared']

end

/-- The branches of two related mappings demand alike of one object. -/
theorem Part.ofBranch_paired {R : Schema → Schema → Prop}
    {places : Place → Place → Prop} {same : Violation → Violation → Prop}
    {place place' : Place} {mapping mapping' : KeyMap Schema}
    (htogether : Place.Together places same) (hplace : places place place')
    (hmapping : Entries.Related R mapping mapping') (tag : String)
    (members : KeyMap Json) :
    Paired (Node.Matches places (Schema.OneValue R)) same
      (ofBranch place tag mapping members)
      (ofBranch place' tag mapping' members) := by
  have hmap := htogether.underSchema hplace Keyword.mapping.name
  have hnone := htogether.underSchema hplace Keyword.tag.name
  unfold ofBranch
  rcases members.get? tag with _ | value
  · exact .clash (htogether.violation hnone)
  · cases value with
    | str branch =>
        have hbranch := hmapping.get? branch
        dsimp only
        generalize mapping.get? branch = schema at hbranch
        generalize mapping'.get? branch = schema' at hbranch
        cases hbranch with
        | none =>
            exact .clash (htogether.violation
              (htogether.underInstance hmap tag))
        | some hrelated =>
            exact .node ⟨htogether.underSchema hmap branch, rfl, hrelated, rfl⟩
    | _ =>
        exact .clash (htogether.violation (htogether.underInstance hnone tag))

namespace Form.Congruent

variable {R : Schema → Schema → Prop} {places : Place → Place → Prop}
  {same : Violation → Violation → Prop} {root root' : Schema} {n n' : Node}

/-- A form is congruent with itself. -/
theorem refl (hrefl : ∀ s, R s s) (form : Form) : form.Congruent R form := by
  have hmaps : ∀ schemas : Option (KeyMap Schema),
      Option.Rel (Entries.Related R) schemas schemas := rel_refl (.refl hrefl)
  cases form with
  | empty => exact .empty
  | ref => exact .ref
  | type => exact .type
  | enum => exact .enum
  | elements s => exact .elements (hrefl s)
  | properties required optional additional =>
      exact .properties (hmaps required) (hmaps optional)
  | values s => exact .values (hrefl s)
  | discriminator tag mapping => exact .discriminator (.refl hrefl mapping)

theorem exists_ref_iff {form form' : Form} (hform : form.Congruent R form') :
    (∃ name, form = .ref name) ↔ ∃ name, form' = .ref name := by
  cases hform <;> simp

theorem tooDeep_eq {limits : Limits}
    (hform : n.schema.form.Congruent R n'.schema.form)
    (hdepth : n'.place.depth = n.place.depth) :
    n'.tooDeep limits = n.tooDeep limits := by
  rw [Bool.eq_iff_iff, Node.tooDeep_iff, Node.tooDeep_iff,
    hform.exists_ref_iff, hdepth]

/-- A node inside fewer refs is not too deep either. -/
theorem tooDeep_eq_false {limits : Limits}
    (hform : n.schema.form.Congruent R n'.schema.form)
    (hdepth : n'.place.depth ≤ n.place.depth)
    (hdeep : n.tooDeep limits = false) :
    n'.tooDeep limits = false := by
  rw [← Bool.not_eq_true, Node.tooDeep_iff] at hdeep ⊢
  rintro ⟨href, hpos, hle⟩
  exact hdeep ⟨hform.exists_ref_iff.2 href, hpos, hle.trans hdepth⟩

/-- The parts of two nodes with congruent forms come in pairs, if their values
and tags are the same. -/
theorem parts_paired (htogether : Place.Together places same)
    (hplace : places n.place n'.place)
    (hform : n.schema.form.Congruent R n'.schema.form)
    (hvalue : n'.value = n.value) (htag : n'.tag = n.tag)
    (hdefinitions : ∀ name, n.schema.form = .ref name →
      Option.Rel R (root.definition? name) (root'.definition? name)) :
    List.Forall₂ (Part.Paired (Node.Matches places (Schema.OneValue R)) same)
      (n.parts root) (n'.parts root') := by
  obtain ⟨place, ⟨definitions, form⟩, value, tag⟩ := n
  obtain ⟨place', ⟨definitions', form'⟩, _, _⟩ := n'
  cases hvalue
  cases htag
  have hclash : ∀ token,
      List.Forall₂ (Part.Paired (Node.Matches places (Schema.OneValue R)) same)
      [.clash (place.underSchema token)] [.clash (place'.underSchema token)] :=
        fun token =>
    .cons (.clash (htogether.violation (htogether.underSchema hplace token)))
      .nil
  cases hform with
  | empty => exact .nil
  | @ref name =>
      have htarget := hdefinitions name rfl
      simp only [Node.parts]
      generalize root.definition? name = target at htarget
      generalize root'.definition? name = target' at htarget
      cases htarget with
      | none => exact .cons .dangling .nil
      | some hrelated =>
          exact .cons (.node ⟨htogether.atDefinition hplace name, rfl,
            hrelated, rfl⟩) .nil
  | @type type =>
      simp only [Node.parts]
      split
      · exact .nil
      · exact hclash _
  | @enum values =>
      cases value with
      | str s =>
          simp only [Node.parts]
          split
          · exact .nil
          · exact hclash _
      | _ => exact hclash _
  | @elements s s' hitems =>
      cases value with
      | arr items =>
          apply Part.ofItems_paired htogether
            (htogether.underSchema hplace _) rfl
          intro index item item' hitem hitem'
          exact ⟨hitems, Option.some.inj (hitem'.symm.trans hitem)⟩
      | _ => exact hclash _
  | @properties required optional required' optional' additional
      hrequired hoptional =>
        cases value with
        | obj members =>
            have hdeclare : ∀ schemas schemas',
                Entries.Related R schemas schemas' →
                DeclareAlike (Schema.OneValue R) schemas schemas'
                  members members :=
              fun _ _ hrelated => hrelated.declareAlike members
            refine Part.ofProperties_paired htogether hplace
              (rel_imp hdeclare hrequired) (rel_imp hdeclare hoptional) ?_
            intro _ key
            rw [isDeclared_eq_of_related hrequired hoptional]
        | _ =>
            simp only [Node.parts]
            cases hrequired <;> exact hclash _
  | @values s s' hmembers =>
      cases value with
      | obj members =>
          apply Part.ofMembers_paired htogether
            (htogether.underSchema hplace _) rfl
          intro key member member' hmember hmember'
          exact ⟨hmembers, Option.some.inj (hmember'.symm.trans hmember)⟩
      | _ => exact hclash _
  | @discriminator tag mapping mapping' hmapping =>
      cases value with
      | obj members =>
          have hdiscriminator :=
            htogether.underSchema hplace Keyword.discriminator.name
          exact .cons (Part.ofBranch_paired htogether hdiscriminator hmapping
            tag members) .nil
      | _ => exact hclash _

end Form.Congruent

end SchemaForms
