import SchemaForms.Report
import SchemaForms.Proofs.Checked
import SchemaForms.Proofs.PairedParts
/-!
Inlining refs.  A ref is inlined where the form of its definition takes its
place.  What is visited at the definition before is visited right there then,
inside one ref less, so a validation accompanies the one against the schema with
the ref (`accompanies_of_inlines`): it waits where that one follows the ref, and
goes on with it everywhere else.
-/

namespace SchemaForms

namespace Entries

variable {α : Type} {lo : Option String}

/-- Changes what a key is bound to, if it is bound. -/
def modify (key : String) (f : α → α) : {lo : Option String} → Entries α lo →
    Entries α lo
  | _, .nil => .nil
  | _, .cons k above value rest =>
      .cons k above (if k = key then f value else value) (rest.modify key f)

theorem get?_modify (key key' : String) (f : α → α) (m : Entries α lo) :
    (m.modify key f).get? key' = if key' = key then (m.get? key').map f
      else m.get? key' := by
  induction m with
  | nil => simp [modify]
  | cons k above value rest ih =>
      rw [modify, get?_cons, get?_cons, ih]
      by_cases hkey : key' = k
      · subst hkey
        by_cases hsame : key' = key <;> simp [hsame]
      · simp [hkey]

@[simp] theorem keys_modify (key : String) (f : α → α) (m : Entries α lo) :
    (m.modify key f).keys = m.keys := by
  induction m with
  | nil => rfl
  | cons k above value rest ih => exact congrArg (k :: ·) ih

end Entries

namespace Schema

/-- The schema in which the schema at a path below has another form. -/
def replaceBelow (new : Form) : SchemaPath → Schema → Schema
  | [], s => { s with form := new }
  | keyword :: path, s =>
      match s.form with
      | .elements inner =>
          { s with form := .elements (replaceBelow new path inner) }
      | .values inner =>
          { s with form := .values (replaceBelow new path inner) }
      | .properties required optional additional =>
          match path with
          | key :: path =>
              let change (schemas : KeyMap Schema) :=
                schemas.modify key (replaceBelow new path)
              if keyword = Keyword.properties.name then
                { s with
                  form :=
                    .properties (required.map change) optional additional }
              else
                { s with
                  form :=
                    .properties required (optional.map change) additional }
          | [] => s
      | .discriminator tag mapping =>
          match path with
          | _ :: name :: path =>
              { s with
                form :=
                  .discriminator tag
                    (mapping.modify name (replaceBelow new path)) }
          | _ => s
      | _ => s

/-- The root in which the node at a path has another form. -/
def replaceAt (new : Form) (path : SchemaPath) (root : Schema) : Schema :=
  match path with
  | first :: name :: rest =>
      if first = Keyword.definitions.name then
        { root with
          definitions :=
            root.definitions.map (·.modify name (replaceBelow new rest)) }
      else root.replaceBelow new path
  | _ => root.replaceBelow new path

variable {root s t node : Schema} {path : SchemaPath} {new : Form}
  {name : String}

/-- What changes is the form. -/
@[simp] theorem definition?_replaceBelow (new : Form) (path : SchemaPath)
    (s : Schema) (name : String) :
    (s.replaceBelow new path).definition? name = s.definition? name := by
  obtain ⟨definitions, form⟩ := s
  unfold replaceBelow
  split
  · rfl
  · repeat' split
    all_goals rfl

theorem Contains.replaceBelow (hcontains : s.Contains path node) (new : Form) :
    (s.replaceBelow new path).Contains path { node with form := new } := by
  induction hcontains with
  | self => exact .self
  | @under s t node tokens rest hholds _ ih =>
      obtain ⟨definitions, form⟩ := s
      refine .under ?_ ih
      cases hholds with
      | elements => exact .elements
      | values => exact .values
      | required hkey => exact .required (by simp [Entries.get?_modify, hkey])
      | optional hkey => exact .optional (by simp [Entries.get?_modify, hkey])
      | branch hname => exact .branch (by simp [Entries.get?_modify, hname])

theorem replaceAt_of_contains (hcontains : root.Contains path node)
    (new : Form) :
    root.replaceAt new path = root.replaceBelow new path := by
  match path, hcontains with
  | [], _ => rfl
  | [_], _ => rfl
  | first :: second :: rest, hcontains =>
      rw [replaceAt, if_neg]
      rintro rfl
      exact hcontains.head_ne rfl

/-- At the path stands the node with its new form. -/
theorem Walked.replaceAt (hwalked : root.Walked path node) (new : Form) :
    (root.replaceAt new path).Walked path { node with form := new } := by
  cases hwalked with
  | form hcontains =>
      rw [replaceAt_of_contains hcontains]
      exact .form (hcontains.replaceBelow new)
  | @definition name path definition node hname hcontains =>
      obtain ⟨definitions, form⟩ := root
      obtain ⟨schemas, rfl, hget⟩ := Option.bind_eq_some_iff.1 hname
      have hchanged :
          (schemas.modify name (Schema.replaceBelow new path)).get? name =
          some (definition.replaceBelow new path) := by
        rw [Entries.get?_modify, if_pos rfl, hget, Option.map_some]
      exact .definition hchanged (hcontains.replaceBelow new)

/-- The second schema has the form of the first one, or its form with one ref of
the name replaced, somewhere below, by a new form. -/
inductive Inlines (name : String) (new : Form) (s t : Schema) : Prop where
  | same (hform : t.form = s.form)
  | inlined {path : SchemaPath} {node : Schema}
      (hcontains : s.Contains path node) (href : node.form = .ref name)
      (hform : t.form = (s.replaceBelow new path).form)

theorem Inlines.refl (name : String) (new : Form) (s : Schema) :
    s.Inlines name new s := .same rfl

/-- Where one value of a map is changed to a related one, the maps are
related. -/
theorem related_modify {R : Schema → Schema → Prop} (hrefl : ∀ s, R s s)
    {schemas : KeyMap Schema} {key : String} {f : Schema → Schema}
    (hkey : ∀ s, schemas.get? key = some s → R s (f s)) :
    Entries.Related R schemas (schemas.modify key f) := by
  refine ⟨(Entries.keys_modify key f schemas).symm, ?_⟩
  intro other s t hs ht
  rw [Entries.get?_modify, hs] at ht
  by_cases hother : other = key
  · subst hother
    cases (if_pos rfl).symm.trans ht
    exact hkey s hs
  · cases (if_neg hother).symm.trans ht
    exact hrefl s

/-- Either the ref itself has been replaced, or the two forms have one shape. -/
theorem Inlines.ref_or_congruent (hinlines : s.Inlines name new t) :
    s.form = .ref name ∧ t.form = new ∨
      s.form.Congruent (Inlines name new) t.form := by
  have hrefl := Inlines.refl name new
  have hmaps : ∀ schemas : Option (KeyMap Schema),
      Option.Rel (Entries.Related (Inlines name new)) schemas schemas :=
        rel_refl (.refl hrefl)
  cases hinlines with
  | same hform =>
      rw [hform]
      exact .inr (.refl hrefl s.form)
  | inlined hcontains href hform =>
      rw [hform]
      cases hcontains with
      | self => exact .inl ⟨href, rfl⟩
      | @under s inner node tokens rest hholds hcontains =>
          right
          have hinner : inner.Inlines name new (inner.replaceBelow new rest) :=
            .inlined hcontains href rfl
          have hchanged : ∀ {schemas : KeyMap Schema} {key : String},
              schemas.get? key = some inner →
                Entries.Related (Inlines name new) schemas
                (schemas.modify key (Schema.replaceBelow new rest)) := by
            intro schemas key hkey
            apply related_modify hrefl
            intro other hother
            cases hkey.symm.trans hother
            exact hinner
          obtain ⟨definitions, form⟩ := s
          cases hholds with
          | elements => exact .elements hinner
          | values => exact .values hinner
          | required hkey => exact .properties (.some (hchanged hkey)) (hmaps _)
          | optional hkey => exact .properties (hmaps _) (.some (hchanged hkey))
          | branch hname => exact .discriminator (hchanged hname)

/-- Two roots of which the forms, and the definitions of each name, are related
as before and behind the inlining of one ref. -/
structure InlinesAt (name : String) (new : Form) (root root' : Schema) :
    Prop where
  form : root.Inlines name new root'
  definitions : ∀ other,
    Option.Rel (Inlines name new) (root.definition? other)
      (root'.definition? other)

theorem Walked.inlinesAt (hwalked : root.Walked path node)
    (href : node.form = .ref name) (new : Form) :
    root.InlinesAt name new (root.replaceAt new path) := by
  cases hwalked with
  | form hcontains =>
      rw [replaceAt_of_contains hcontains]
      refine ⟨.inlined hcontains href rfl, ?_⟩
      intro other
      rw [definition?_replaceBelow]
      exact rel_refl (.refl name new) _
  | @definition other path definition node hother hcontains =>
      obtain ⟨definitions, form⟩ := root
      obtain ⟨schemas, rfl, hget⟩ := Option.bind_eq_some_iff.1 hother
      refine ⟨.same rfl, (related_modify (Inlines.refl name new) ?_).get?⟩
      intro s hs
      cases hget.symm.trans hs
      exact .inlined hcontains href rfl

end Schema

/-- The place of the same value, inside no more refs. -/
structure Place.Shallower (place place' : Place) : Prop where
  instancePath : place'.instancePath = place.instancePath
  depth : place'.depth ≤ place.depth

theorem Place.together_shallower :
    Together Shallower fun v v' => v'.instancePath = v.instancePath := by
  refine ⟨?_, ?_, ?_, ?_⟩
  · intro place place' hplace token
    exact ⟨congrArg (· ++ [token]) hplace.instancePath, hplace.depth⟩
  · intro place place' hplace token
    exact ⟨hplace.instancePath, hplace.depth⟩
  · intro place place' hplace name
    exact ⟨hplace.instancePath, Nat.succ_le_succ hplace.depth⟩
  · intro place place' hplace
    exact hplace.instancePath

variable {root root' s t node target : Schema} {n n' c : Node}
  {path : SchemaPath} {new : Form} {name : String} {limits : Limits}
  {found : List Violation} {value : Json}

/-- A node that the checker walks over, and that has no tag if it is a ref. -/
structure Node.Sound (root : Schema) (n : Node) : Prop where
  walked : root.Walked n.place.schemaPath n.schema
  untagged : ∀ name, n.schema.form = .ref name → n.tag = none

theorem Node.Sound.of_meets (hchecked : root.issues = [])
    (hsound : n.Sound root) (hmeets : n.Meets root (.node c)) :
    c.Sound root := by
  refine ⟨hmeets.walked hsound.walked, ?_⟩
  intro name hname
  cases hmeets with
  | branch hform hvalue htag hbranch =>
      obtain ⟨required, optional, additional, hproperties, -⟩ :=
        hsound.walked.exists_properties hchecked hform hbranch
      cases hname.symm.trans hproperties
  | _ => rfl

/-- A node, and the one that is visited in its stead when a ref of the name is
inlined. -/
def Node.Inlined (root : Schema) (name : String) (new : Form)
    (n n' : Node) : Prop :=
  n.Sound root ∧
    n.Matches Place.Shallower (Schema.OneValue (Schema.Inlines name new)) n'

/-- Where the ref is inlined, its definition is visited without following it. -/
theorem accompanies_of_inlines (hchecked : root.issues = [])
    (hinlines : root.InlinesAt name target.form root')
    (htarget : root.definition? name = some target) (limits : Limits) :
    Accompanies (Node.Inlined root name target.form) (fun v v' =>
      v'.instancePath = v.instancePath)
      limits root root' := by
  rintro n n' ⟨hsound, hplace, htag, hschema, hvalue⟩ hdeep
  rcases hschema.ref_or_congruent with ⟨href, hnew⟩ | hform
  · left
    have hmeets : n.Meets root (.node (n.entry name target)) :=
      .target href htarget
    have hdepth : n'.place.depth ≤ n.place.depth + 1 :=
      Nat.le_succ_of_le hplace.depth
    rw [Node.parts_ref href htarget]
    refine .cons (.node ⟨hsound.of_meets hchecked hmeets, ?_⟩) .nil
    exact ⟨⟨hplace.instancePath, hdepth⟩,
      htag.trans (hsound.untagged name href), .same hnew, hvalue⟩
  · right
    refine ⟨hform.tooDeep_eq_false hplace.depth hdeep, Part.forall₂_and ?_ ?_⟩
    · exact hform.parts_paired Place.together_shallower hplace hvalue htag
        fun other _ => hinlines.definitions other
    · intro c hc
      exact hsound.of_meets hchecked (Node.mem_parts_iff.1 hc)

/-- In a checked schema a ref may be inlined wherever it stands, be it in its
own definition.  Of every instance that is validated against the schema within
some limits, as many violations are found in the same places of the instance as
before. -/
theorem validate_inlined (hchecked : root.check = .ok ())
    (hwalked : root.Walked path node) (href : node.form = .ref name) :
    ∃ target, root.definition? name = some target ∧
      (root.replaceAt target.form path).Walked path
        { node with form := target.form } ∧
      ∀ limits value found, validate limits root value = .ok found →
        ∃ found', validate limits (root.replaceAt target.form path) value =
          .ok found' ∧
          found'.map Violation.instancePath = found.map Violation.instancePath ∧
          found'.length = found.length ∧
          (Report.ofViolations limits found').valid =
            (Report.ofViolations limits found).valid ∧
          (Report.ofViolations limits found').truncated =
            (Report.ofViolations limits found).truncated := by
  rw [Schema.check_eq_ok_iff] at hchecked
  have htarget : ∃ target, root.definition? name = some target := by
    rw [← Option.ne_none_iff_exists']
    intro hnone
    apply hwalked.not_breaks hchecked
    rw [href]
    exact .unknownRef hnone
  obtain ⟨target, htarget⟩ := htarget
  refine ⟨target, htarget, hwalked.replaceAt target.form, ?_⟩
  intro limits value found hvalid
  have hinlines := hwalked.inlinesAt href target.form
  have hstart : Node.Inlined root name target.form (.start root value)
      (.start (root.replaceAt target.form path) value) :=
    ⟨⟨.start root, fun _ _ => rfl⟩, ⟨rfl, Nat.le_refl 0⟩, rfl,
      hinlines.form, rfl⟩
  obtain ⟨found', hvalid', hfound⟩ :=
    (accompanies_of_inlines hchecked hinlines htarget limits).exists_validate
      hstart hvalid
  have hpaths : found'.map Violation.instancePath =
      found.map Violation.instancePath := by
    rw [← List.forall₂_eq_eq_eq, List.forall₂_map_left_iff,
      List.forall₂_map_right_iff]
    exact hfound.flip
  have hlength := hfound.length_eq.symm
  refine ⟨found', hvalid', hpaths, hlength, ?_, ?_⟩
  · cases hfound <;> rfl
  · simp only [Report.ofViolations, hlength]

def childrenPath : SchemaPath :=
  ["definitions", "tree", "optionalProperties", "children", "elements"]

/-- The trees may be unfolded in their own definition. -/
theorem validate_inlined_children :
    labelledTree.check = .ok () ∧
    labelledTree.Walked childrenPath (.ofForm (.ref "tree")) ∧
      validate ⟨2, 2⟩ labelledTree mislabelledTree =
        .ok (mislabelledTreeViolations.take 2) ∧
      ∃ target, labelledTree.definition? "tree" = some target ∧
        ∃ found, validate ⟨2, 2⟩
          (labelledTree.replaceAt target.form childrenPath) mislabelledTree =
            .ok found ∧
          found.map Violation.instancePath =
            [["children", "0", "label"], ["children", "1"]] ∧
          (Report.ofViolations ⟨2, 2⟩ found).truncated = true := by
  have hchecked : labelledTree.check = .ok () := by decide +kernel
  have hchildren : labelledTree.Walked ["definitions", "tree",
      "optionalProperties", "children"]
      (.ofForm (.elements (.ofForm (.ref "tree")))) :=
    (Schema.Walked.definition rfl .self).concat (.optional rfl)
  have hwalked : labelledTree.Walked childrenPath (.ofForm (.ref "tree")) :=
    hchildren.concat .elements
  have hvalid : validate ⟨2, 2⟩ labelledTree mislabelledTree =
      .ok (mislabelledTreeViolations.take 2) := by rfl
  obtain ⟨target, htarget, -, hinlined⟩ := validate_inlined hchecked hwalked rfl
  obtain ⟨found, hfound, hpaths, -, -, htruncated⟩ := hinlined _ _ _ hvalid
  exact ⟨hchecked, hwalked, hvalid, target, htarget, found, hfound,
    hpaths, htruncated⟩

end SchemaForms
