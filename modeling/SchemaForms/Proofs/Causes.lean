import SchemaForms.Proofs.Checked
import SchemaForms.Proofs.Locations
import Mathlib.Data.List.Pairwise
/-!
One violation for each cause.  In a checked schema the parts of a node are about
different members or items of its value, if there is more than one of them
(`Node.parts_pairwise_about`), so what is found behind one of them is not found
behind another.  A validation therefore finds nothing twice, and two violations
at one place of the instance are required members that one and the same node
misses (`validate_one_cause`).
-/

namespace SchemaForms

variable {root : Schema} {n s : Node} {part next : Part} {v w : Violation}
  {key token : String}

/-- A node misses a required member. -/
structure Node.Lacks (n : Node) (key : String) : Prop where
  exists_members : ∃ required optional additional members,
    n.schema.form = .properties (some required) optional additional ∧
    n.value = .obj members ∧
      required.contains key = true ∧ members.get? key = none

def Node.lack (n : Node) (key : String) : Violation :=
  ((n.place.underSchema Keyword.properties.name).underSchema key).violation

/-- A part of a node is about one member or item of its value: it is the clash
for a required member that is missing, or it stands at the member or item. -/
inductive Node.About (n : Node) (token : String) : Part → Prop where
  | lack (hlacks : n.Lacks token) :
      About n token (.clash
        ((n.place.underSchema Keyword.properties.name).underSchema token))
  | clash {place : Place}
      (hpath : place.instancePath = n.place.instancePath ++ [token]) :
      About n token (.clash place)
  | node {c : Node}
      (hpath : c.place.instancePath = n.place.instancePath ++ [token]) :
      About n token (.node c)

/-- Two parts of a node are about different members or items of its value. -/
def Node.AboutDifferent (n : Node) (part next : Part) : Prop :=
  ∃ token other, token ≠ other ∧ n.About token part ∧ n.About other next

instance (n : Node) : Std.Symm n.AboutDifferent where
  symm := by
    rintro part next ⟨token, other, hne, hpart, hnext⟩
    exact ⟨other, token, hne.symm, hnext, hpart⟩

/-- Parts of a node that are about members or items of one kind, and no two of
them about the same. -/
structure Node.ApartBy (n : Node) (kind : String → Prop) (parts : List Part) :
    Prop where
  about : ∀ part ∈ parts, ∃ token, kind token ∧ n.About token part
  apart : parts.Pairwise n.AboutDifferent

namespace Node

theorem ApartBy.nil {kind : String → Prop} : n.ApartBy kind [] :=
  ⟨by simp, .nil⟩

/-- Parts of two kinds that have no member in common. -/
theorem ApartBy.append {kind other : String → Prop} {parts rest : List Part}
    (hparts : n.ApartBy kind parts) (hrest : n.ApartBy other rest)
    (hdisjoint : ∀ token, kind token → ¬ other token) :
    n.ApartBy (fun token => kind token ∨ other token) (parts ++ rest) := by
  constructor
  · intro part hpart
    rcases List.mem_append.1 hpart with hpart | hpart
    · obtain ⟨token, htoken, habout⟩ := hparts.about part hpart
      exact ⟨token, .inl htoken, habout⟩
    · obtain ⟨token, htoken, habout⟩ := hrest.about part hpart
      exact ⟨token, .inr htoken, habout⟩
  · rw [List.pairwise_append]
    refine ⟨hparts.apart, hrest.apart, ?_⟩
    intro part hpart next hnext
    obtain ⟨token, htoken, habout⟩ := hparts.about part hpart
    obtain ⟨other, hother, habout'⟩ := hrest.about next hnext
    refine ⟨token, other, ?_, habout, habout'⟩
    rintro rfl
    exact hdisjoint token htoken hother

/-- Parts made from entries that have different tokens. -/
theorem ApartBy.filterMap {α : Type} {kind : String → Prop} {entries : List α}
    (token : α → String) {part? : α → Option Part}
    (htokens : entries.Pairwise fun entry next => token entry ≠ token next)
    (habout : ∀ entry ∈ entries, ∀ part, part? entry = some part →
      kind (token entry) ∧ n.About (token entry) part) :
    n.ApartBy kind (entries.filterMap part?) := by
  constructor
  · intro part hpart
    obtain ⟨entry, hentry, himage⟩ := List.mem_filterMap.1 hpart
    exact ⟨token entry, habout entry hentry part himage⟩
  · rw [List.pairwise_filterMap]
    apply htokens.imp_of_mem
    intro entry next hentry hnext hne part hpart later hlater
    exact ⟨token entry, token next, hne, (habout entry hentry part hpart).2,
      (habout next hnext later hlater).2⟩

theorem ApartBy.map {α : Type} {kind : String → Prop} {entries : List α}
    (token : α → String) {part : α → Part}
    (htokens : entries.Pairwise fun entry next => token entry ≠ token next)
    (habout : ∀ entry ∈ entries, kind (token entry) ∧
      n.About (token entry) (part entry)) :
    n.ApartBy kind (entries.map part) := by
  rw [← List.filterMap_eq_map]
  apply ApartBy.filterMap token htokens
  intro entry hentry next hnext
  cases hnext
  exact habout entry hentry

theorem keys_ne {α : Type} (members : KeyMap α) :
    members.toList.Pairwise fun entry next => entry.1 ≠ next.1 :=
  List.pairwise_map.1 members.nodup_keys

theorem ofItems_apart (schema : Schema) (items : List Json) :
    n.ApartBy (fun _ => True)
      (Part.ofItems (n.place.underSchema Keyword.elements.name)
        schema items) := by
  have hindices : items.zipIdx.Pairwise fun entry next => entry.2 ≠ next.2 := by
    rw [← List.pairwise_map, List.zipIdx_map_snd]
    exact List.nodup_range'
  apply ApartBy.map fun entry => Digits.text entry.2
  · exact hindices.imp fun hne htext => hne (Digits.text_injective htext)
  · exact fun entry _ => ⟨trivial, .node rfl⟩

theorem ofMembers_apart (schema : Schema) (members : KeyMap Json) :
    n.ApartBy (fun _ => True)
      (Part.ofMembers (n.place.underSchema Keyword.values.name)
        schema members) :=
  ApartBy.map Prod.fst (keys_ne members) fun _ _ => ⟨trivial, .node rfl⟩

section

variable {required optional : KeyMap Schema}
  {required? optional? : Option (KeyMap Schema)} {additional : Bool}
  {members : KeyMap Json}

theorem ofRequired_apart
    (hform : n.schema.form = .properties (some required) optional? additional)
    (hvalue : n.value = .obj members) :
    n.ApartBy (fun key => required.contains key = true)
      (Part.ofRequired (n.place.underSchema Keyword.properties.name)
        required members) := by
  apply ApartBy.map Prod.fst (keys_ne required)
  rintro ⟨key, schema⟩ hentry
  have hkey : required.contains key = true :=
    Entries.contains_iff.2 ⟨schema, Entries.get?_eq_some_iff.2 hentry⟩
  refine ⟨hkey, ?_⟩
  cases hmember : members.get? key with
  | none =>
      simp only [hmember]
      exact .lack ⟨required, optional?, additional, members, hform,
        hvalue, hkey, hmember⟩
  | some member =>
      simp only [hmember]
      exact .node rfl

theorem ofOptional_apart (optional : KeyMap Schema) (members : KeyMap Json) :
    n.ApartBy (fun key => optional.contains key = true)
      (Part.ofOptional (n.place.underSchema Keyword.optionalProperties.name)
        optional members) := by
  apply ApartBy.filterMap Prod.fst (keys_ne optional)
  rintro ⟨key, schema⟩ hentry part hpart
  obtain ⟨member, -, rfl⟩ := Option.map_eq_some_iff.1 hpart
  exact ⟨Entries.contains_iff.2 ⟨schema, Entries.get?_eq_some_iff.2 hentry⟩,
    .node rfl⟩

theorem ofUndeclared_apart (required? optional? : Option (KeyMap Schema))
    (tag : Option String) (members : KeyMap Json) :
    n.ApartBy (fun key => isDeclared required? optional? tag key = false)
      (Part.ofUndeclared n.place required? optional? tag members) := by
  apply ApartBy.map id
  · exact members.nodup_keys.filter _
  · intro key hkey
    exact ⟨by simpa using (List.mem_filter.1 hkey).2, .clash rfl⟩

/-- The three kinds of members have none in common. -/
theorem append_apart {required optional undeclared : List Part}
    (tag : Option String)
    (hrequired : n.ApartBy (fun key => declares required? key = true) required)
    (hoptional : n.ApartBy (fun key => declares optional? key = true) optional)
    (hundeclared : n.ApartBy
      (fun key => isDeclared required? optional? tag key = false) undeclared)
    (hdisjoint : ∀ key, declares required? key = true →
      ¬ declares optional? key = true) :
    (required ++ optional ++ undeclared).Pairwise n.AboutDifferent := by
  refine ((hrequired.append hoptional hdisjoint).append hundeclared ?_).apart
  intro key hdeclared hundeclared
  simp only [isDeclared, Bool.or_eq_false_iff] at hundeclared
  rcases hdeclared with hdeclared | hdeclared
  · exact Bool.false_ne_true (hundeclared.1.1.symm.trans hdeclared)
  · exact Bool.false_ne_true (hundeclared.1.2.symm.trans hdeclared)

theorem ofProperties_apart
    (hform : n.schema.form = .properties required? optional? additional)
    (hvalue : n.value = .obj members)
    (hdisjoint : ∀ key, declares required? key = true →
      ¬ declares optional? key = true) :
    (Part.ofProperties n.place required? optional? additional n.tag
      members).Pairwise
      n.AboutDifferent := by
  refine append_apart n.tag ?_ ?_ ?_ hdisjoint
  · cases required? with
    | none => exact .nil
    | some required => exact ofRequired_apart hform hvalue
  · cases optional? with
    | none => exact .nil
    | some optional => exact ofOptional_apart optional members
  · cases additional with
    | true => exact .nil
    | false => exact ofUndeclared_apart required? optional? n.tag members

end

/-- The parts of a node of a checked schema are about different members or
items. -/
theorem parts_pairwise_about (hchecked : root.issues = [])
    (hwalked : root.Walked n.place.schemaPath n.schema) :
    (n.parts root).Pairwise n.AboutDifferent := by
  obtain ⟨place, ⟨definitions, form⟩, value, tag⟩ := n
  cases form with
  | empty => exact .nil
  | ref name => cases htarget : root.definition? name <;> simp [parts, htarget]
  | type type => cases htype : type.accepts value <;> simp [parts, htype]
  | enum values =>
      cases value with
      | str s => cases hs : values.contains s <;> simp [parts, hs]
      | _ => exact List.pairwise_singleton _ _
  | elements schema =>
      cases value with
      | arr items => exact (ofItems_apart schema items).apart
      | _ => exact List.pairwise_singleton _ _
  | properties required? optional? additional =>
      cases value with
      | obj members =>
          exact ofProperties_apart rfl rfl fun key =>
            hwalked.not_optional hchecked rfl
      | _ => exact List.pairwise_singleton _ _
  | values schema =>
      cases value with
      | obj members => exact (ofMembers_apart schema members).apart
      | _ => exact List.pairwise_singleton _ _
  | discriminator tag mapping =>
      cases value with
      | obj members => exact List.pairwise_singleton _ _
      | _ => exact List.pairwise_singleton _ _

theorem lack_schemaPath (n : Node) (key : String) :
    (n.lack key).schemaPath = n.place.schemaPath ++
      [Keyword.properties.name, key] :=
  List.append_assoc _ _ _

theorem Meets.inside_node {c : Node} (hmeets : n.Meets root (.node c)) :
    n.place.instancePath <+: c.place.instancePath := by
  cases hmeets with
  | target hform htarget => exact List.prefix_rfl
  | branch hform hvalue htag hbranch => exact List.prefix_rfl
  | _ => exact List.prefix_append _ _

theorem Meets.inside_clash {place : Place}
    (hmeets : n.Meets root (.clash place)) :
    n.place.instancePath <+: place.instancePath := by
  cases hmeets with
  | undeclared hform hvalue hmember hkey => exact List.prefix_append _ _
  | badTag hform hvalue htag hmember => exact List.prefix_append _ _
  | noBranch hform hvalue htag hbranch => exact List.prefix_append _ _
  | _ => exact List.prefix_rfl

theorem LeadsTo.inside {c : Node} (hleads : n.LeadsTo root c) :
    n.place.instancePath <+: c.place.instancePath := by
  induction hleads with
  | refl => exact List.prefix_rfl
  | tail _ hmeets ih => exact ih.trans hmeets.inside_node

/-- What is found behind a node is found at its value or inside it. -/
theorem Clashes.inside (hclashes : n.Clashes root v) :
    n.place.instancePath <+: v.instancePath := by
  obtain ⟨c, place, hleads, hmeets, rfl⟩ := hclashes
  exact hleads.inside.trans hmeets.inside_clash

/-- What is found behind a part is the lack of the member it is about, or is
found inside it. -/
theorem About.clashes (habout : n.About token part)
    (hclashes : part.Clashes root v) :
    n.Lacks token ∧ v = n.lack token ∨ n.place.instancePath ++
      [token] <+: v.instancePath := by
  cases habout with
  | lack hlacks => exact .inl ⟨hlacks, hclashes⟩
  | clash hpath =>
      obtain rfl : v = _ := hclashes
      exact .inr (hpath ▸ List.prefix_rfl)
  | node hpath => exact .inr (hpath ▸ Clashes.inside hclashes)

/-- Behind parts about different members, only two members that are missing are
found at one place. -/
theorem AboutDifferent.exists_lacks (hdifferent : n.AboutDifferent part next)
    (hv : part.Clashes root v) (hw : next.Clashes root w)
    (hpath : v.instancePath = w.instancePath) :
    ∃ k l, k ≠ l ∧ n.Lacks k ∧ n.Lacks l ∧ v = n.lack k ∧ w = n.lack l := by
  have hlong : ∀ token,
      ¬ n.place.instancePath ++ [token] <+: n.place.instancePath := by
    intro token hinside
    have hle := hinside.length_le
    rw [List.length_append] at hle
    exact Nat.not_succ_le_self _ hle
  obtain ⟨k, l, hne, hpart, hnext⟩ := hdifferent
  rcases hpart.clashes hv with ⟨hk, rfl⟩ | hk
  · rcases hnext.clashes hw with ⟨hl, rfl⟩ | hl
    · exact ⟨k, l, hne, hk, hl, rfl, rfl⟩
    · rw [← hpath] at hl
      exact absurd hl (hlong l)
  · rw [hpath] at hk
    rcases hnext.clashes hw with ⟨hl, rfl⟩ | hl
    · exact absurd hk (hlong k)
    · have hsame := List.prefix_of_prefix_length_le hk hl (by simp)
      have heq := hsame.eq_of_length (by simp)
      exact absurd (List.singleton_inj.1 (List.append_cancel_left heq)) hne

/-- Of two violations at one place behind a node of a checked schema, the second
one is behind the part that the first one is behind, or both are missing members
of the node. -/
theorem Clashes.same_or_lacks (hw : n.Clashes root w)
    (hchecked : root.issues = [])
    (hwalked : root.Walked n.place.schemaPath n.schema)
    (hmeets : n.Meets root part) (hv : part.Clashes root v)
    (hpath : v.instancePath = w.instancePath) :
    part.Clashes root w ∨
      ∃ k l, k ≠ l ∧ n.Lacks k ∧ n.Lacks l ∧ v = n.lack k ∧ w = n.lack l := by
  obtain ⟨next, hnext, hclashes⟩ := clashes_iff.1 hw
  by_cases hsame : part = next
  · exact .inl (hsame ▸ hclashes)
  · have hdifferent := (parts_pairwise_about hchecked hwalked).forall
      (mem_parts_iff.2 hmeets) (mem_parts_iff.2 hnext) hsame
    exact .inr (hdifferent.exists_lacks hv hclashes hpath)

/-- Of two different violations behind a node of a checked schema that are found
at one place, both are missing members of one node. -/
theorem Clashes.exists_lacks (hv : s.Clashes root v) (hw : s.Clashes root w)
    (hchecked : root.issues = [])
    (hwalked : root.Walked s.place.schemaPath s.schema) (hne : v ≠ w)
    (hpath : v.instancePath = w.instancePath) :
    ∃ n k l, s.LeadsTo root n ∧ k ≠ l ∧ n.Lacks k ∧ n.Lacks l ∧ v = n.lack k ∧
      w = n.lack l := by
  obtain ⟨c, place, hleads, hmeets, hplace⟩ := hv
  -- Along the way to the first violation, the second one lies behind the same
  -- part, or behind another.
  induction hleads using Relation.ReflTransGen.head_induction_on with
  | refl =>
      rcases hw.same_or_lacks hchecked hwalked hmeets hplace hpath with
        hsame | hlacks
      · exact absurd (hplace.trans hsame.symm) hne
      · obtain ⟨k, l, hlacks⟩ := hlacks
        exact ⟨c, k, l, .refl, hlacks⟩
  | @head n next hnext hleads ih =>
      have hclashes : (Part.node next).Clashes root v :=
        ⟨c, place, hleads, hmeets, hplace⟩
      rcases hw.same_or_lacks hchecked hwalked hnext hclashes hpath with
        hsame | hlacks
      · obtain ⟨m, k, l, hleads, hlacks⟩ := ih hsame (hnext.walked hwalked)
        exact ⟨m, k, l, .head hnext hleads, hlacks⟩
      · obtain ⟨k, l, hlacks⟩ := hlacks
        exact ⟨n, k, l, .refl, hlacks⟩

end Node

/-- No violation is found behind both of two parts. -/
def Part.Apart (root : Schema) (part next : Part) : Prop :=
  ∀ v, part.Clashes root v → ¬ next.Clashes root v

theorem Node.parts_pairwise_apart (hchecked : root.issues = [])
    (hwalked : root.Walked n.place.schemaPath n.schema) :
    (n.parts root).Pairwise (Part.Apart root) := by
  refine (parts_pairwise_about hchecked hwalked).imp ?_
  intro part next hdifferent v hv hw
  obtain ⟨k, l, hne, -, -, hk, hl⟩ := hdifferent.exists_lacks hv hw rfl
  have hschema := congrArg Violation.schemaPath (hk.symm.trans hl)
  simp only [lack_schemaPath, List.append_cancel_left_eq, List.cons.injEq,
    true_and, and_true]
    at hschema
  exact hne hschema

namespace Agenda

/-- Nothing has been found twice, and nothing that has been found is found
again. -/
structure Separate (root : Schema) (a : Agenda) : Prop where
  found : a.found.Nodup
  todo : a.todo.Pairwise (Part.Apart root)
  ahead : ∀ v ∈ a.found, ∀ part ∈ a.todo, ¬ part.Clashes root v
  walked : ∀ n, .node n ∈ a.todo → root.Walked n.place.schemaPath n.schema

variable {limits : Limits} {a b : Agenda} {found : List Violation}
  {reason : Option Halt}

theorem Separate.start (schema : Schema) (value : Json) :
    Separate schema (start schema value) := by
  refine ⟨.nil, List.pairwise_singleton _ _, by simp [Agenda.start], ?_⟩
  intro n hn
  cases List.mem_singleton.1 hn
  exact .start schema

/-- A violation at the head of what is to be visited has not been found yet. -/
theorem Separate.nodup_report {place : Place} {todo : List Part}
    (hseparate : Separate root ⟨.clash place :: todo, found⟩) :
    (found ++ [place.violation]).Nodup := by
  rw [← List.concat_eq_append]
  refine hseparate.found.concat ?_
  intro hmem
  exact hseparate.ahead _ hmem _ List.mem_cons_self rfl

theorem Separate.report {place : Place} {todo : List Part}
    (hseparate : Separate root ⟨.clash place :: todo, found⟩) :
    Separate root ⟨todo, found ++ [place.violation]⟩ := by
  obtain ⟨hfirst, htodo⟩ := List.pairwise_cons.1 hseparate.todo
  refine ⟨hseparate.nodup_report, htodo, ?_, ?_⟩
  · intro v hv part hpart
    rcases List.mem_append.1 hv with hv | hv
    · exact hseparate.ahead v hv part (List.mem_cons_of_mem _ hpart)
    · exact hfirst part hpart v (List.mem_singleton.1 hv)
  · intro n hn
    exact hseparate.walked n (List.mem_cons_of_mem _ hn)

/-- A node and its parts have the same violations, and its parts have them apart
from each other. -/
theorem Separate.enter {todo : List Part} (hchecked : root.issues = [])
    (hseparate : Separate root ⟨.node n :: todo, found⟩) :
    Separate root ⟨n.parts root ++ todo, found⟩ := by
  have hwalked : root.Walked n.place.schemaPath n.schema :=
    hseparate.walked n List.mem_cons_self
  obtain ⟨hfirst, htodo⟩ := List.pairwise_cons.1 hseparate.todo
  have hparts : ∀ part ∈ n.parts root, ∀ v, part.Clashes root v →
      n.Clashes root v := by
    intro part hpart v hv
    exact Node.clashes_iff.2 ⟨part, Node.mem_parts_iff.1 hpart, hv⟩
  refine ⟨hseparate.found, ?_, ?_, ?_⟩
  · rw [List.pairwise_append]
    refine ⟨Node.parts_pairwise_apart hchecked hwalked, htodo, ?_⟩
    intro part hpart next hnext v hv
    exact hfirst next hnext v (hparts part hpart v hv)
  · intro v hv part hpart hclashes
    rcases List.mem_append.1 hpart with hpart | hpart
    · exact hseparate.ahead v hv _ List.mem_cons_self
        (hparts part hpart v hclashes)
    · exact hseparate.ahead v hv part (List.mem_cons_of_mem _ hpart) hclashes
  · intro c hc
    rcases List.mem_append.1 hc with hc | hc
    · exact (Node.mem_parts_iff.1 hc).walked hwalked
    · exact hseparate.walked c (List.mem_cons_of_mem _ hc)

theorem Step.separate (hstep : Step limits root a b)
    (hchecked : root.issues = []) (hseparate : Separate root a) :
    Separate root b := by
  cases hstep with
  | report hlimit => exact hseparate.report
  | enter hdeep => exact hseparate.enter hchecked

theorem Ends.nodup (hends : Ends limits root a found reason)
    (hchecked : root.issues = []) (hseparate : Separate root a) :
    found.Nodup := by
  induction hends with
  | stop hstop =>
      cases hstop with
      | errorLimit hlimit => exact hseparate.nodup_report
      | _ => exact hseparate.found
  | step hstep _ ih => exact ih (hstep.separate hchecked hseparate)

end Agenda

section

variable {schema : Schema} {value : Json} {limits : Limits}
  {found : List Violation}

/-- A validation against a checked schema finds nothing twice.  If two of its
violations are at one place of the instance, then both are required members that
one visited node misses. -/
theorem validate_one_cause (hchecked : schema.check = .ok ())
    (hvalid : validate limits schema value = .ok found) :
    found.Nodup ∧
      ∀ v ∈ found, ∀ w ∈ found, v ≠ w → v.instancePath = w.instancePath →
        ∃ n required optional additional members k l,
          (Node.start schema value).LeadsTo schema n ∧
          n.schema.form = .properties (some required) optional additional ∧
          schema.Walked n.place.schemaPath n.schema ∧
          n.place.instancePath = v.instancePath ∧ n.value = .obj members ∧
          value.Has v.instancePath (.obj members) ∧
          k ≠ l ∧ required.contains k = true ∧ required.contains l = true ∧
          members.get? k = none ∧ members.get? l = none ∧
          v.schemaPath = n.place.schemaPath ++ ["properties", k] ∧
          w.schemaPath = n.place.schemaPath ++ ["properties", l] := by
  rw [Schema.check_eq_ok_iff] at hchecked
  constructor
  · obtain ⟨reason, hends, -⟩ := Agenda.validate_eq_ok_iff.1 hvalid
    exact hends.nodup hchecked (.start schema value)
  · intro v hv w hw hne hpath
    obtain ⟨n, k, l, hleads, hkeys, hk, hl, rfl, rfl⟩ :=
      (clashes_of_validate hvalid hv).exists_lacks
        (clashes_of_validate hvalid hw) hchecked (.start schema) hne hpath
    obtain ⟨required, optional, additional, members, hform, hvalue,
      hrequired, hmissing⟩ :=
        hk.exists_members
    obtain ⟨required', optional', additional', members', hform', hvalue',
      hrequired', hmissing'⟩ :=
        hl.exists_members
    cases hform.symm.trans hform'
    cases hvalue.symm.trans hvalue'
    refine ⟨n, required, optional, additional, members, k, l, hleads, hform,
      hleads.walked (.start schema), rfl, hvalue, ?_, hkeys, hrequired,
      hrequired', hmissing,
      hmissing', n.lack_schemaPath k, n.lack_schemaPath l⟩
    rw [← hvalue]
    exact hleads.has Json.Has.self

/-- Cells: each has a head and a tail of cells, and nothing else. -/
def cells : Schema :=
  ⟨some (KeyMap.ofList [("cell", .ofForm (.properties
      (some (KeyMap.ofList [("head", .ofForm (.type .string)),
        ("tail", .ofForm (.elements (.ofForm (.ref "cell"))))])) none false))]),
    .ref "cell"⟩

/-- A cell whose head is no string, with a cell in its tail that has another
member only. -/
def emptyCell : Json :=
  .object [("head", .null), ("tail", .arr [.object [("note", .str "a")]])]

def emptyCellViolations : List Violation :=
  [⟨["head"], ["definitions", "cell", "properties", "head", "type"]⟩,
    ⟨["tail", "0"], ["definitions", "cell", "properties", "head"]⟩,
    ⟨["tail", "0"], ["definitions", "cell", "properties", "tail"]⟩]

/-- The two violations in the tail are members that one cell misses. -/
theorem validate_one_cause_emptyCell :
    cells.check = .ok () ∧
      validate ⟨3, 3⟩ cells emptyCell = .ok emptyCellViolations ∧
      emptyCellViolations.Nodup ∧
      ∃ n required optional additional members,
        (Node.start cells emptyCell).LeadsTo cells n ∧
        n.schema.form = .properties (some required) optional additional ∧
        n.place.instancePath = ["tail", "0"] ∧
        n.place.schemaPath = ["definitions", "cell"] ∧
        n.value = .obj members ∧ members.get? "head" = none ∧
        members.get? "tail" = none := by
  have hchecked : cells.check = .ok () := by decide +kernel
  have hvalid : validate ⟨3, 3⟩ cells emptyCell = .ok emptyCellViolations := by
    decide +kernel
  obtain ⟨hnodup, hcause⟩ := validate_one_cause hchecked hvalid
  obtain ⟨n, required, optional, additional, members, k, l, hleads, hform, -,
    hpath, hvalue, -, -, -, -, hk, hl, hhead, htail⟩ :=
    hcause ⟨["tail", "0"], ["definitions", "cell", "properties", "head"]⟩
      (List.mem_cons_of_mem _ List.mem_cons_self)
      ⟨["tail", "0"], ["definitions", "cell", "properties", "tail"]⟩
      (List.mem_cons_of_mem _ (List.mem_cons_of_mem _ List.mem_cons_self))
        (by decide) rfl
  have hhead' : ["definitions", "cell"] ++ ["properties", "head"] =
      n.place.schemaPath ++ ["properties", k] := hhead
  obtain ⟨hschema, hk'⟩ := List.append_inj' hhead' rfl
  rw [← hschema] at htail
  cases hk'
  cases htail
  exact ⟨hchecked, hvalid, hnodup, n, required, optional, additional, members,
    hleads, hform, hpath, hschema.symm, hvalue, hk, hl⟩

end

end SchemaForms
