import SchemaForms.Schema.Basic
import SchemaForms.Schema.Path
/-!
The nodes of a schema.  A form holds schemas right below it, and `Contains` goes
down along them from schema to schema; `Walked` starts at the root or at one of
its definitions, and says which nodes a root has, each at the path that leads to
it.  A path leads to one node only (`Walked.unique`).
-/

namespace SchemaForms

/-- The schemas right below a form, and the keywords and keys that lead to
them. -/
inductive Form.Holds : Form → SchemaPath → Schema → Prop where
  | elements {s : Schema} : Holds (.elements s) [Keyword.elements.name] s
  | values {s : Schema} : Holds (.values s) [Keyword.values.name] s
  | required {required : KeyMap Schema} {optional : Option (KeyMap Schema)}
      {additional : Bool} {key : String} {s : Schema}
      (hkey : required.get? key = some s) :
      Holds (.properties (some required) optional additional)
        [Keyword.properties.name, key] s
  | optional {required : Option (KeyMap Schema)} {optional : KeyMap Schema}
      {additional : Bool} {key : String} {s : Schema}
      (hkey : optional.get? key = some s) :
      Holds (.properties required (some optional) additional)
        [Keyword.optionalProperties.name, key] s
  | branch {tag : String} {mapping : KeyMap Schema} {name : String} {s : Schema}
      (hname : mapping.get? name = some s) :
      Holds (.discriminator tag mapping)
        [Keyword.discriminator.name, Keyword.mapping.name, name] s

/-- A schema contains itself, and whatever the schemas right below its form
contain.  Its definitions do not count. -/
inductive Schema.Contains : Schema → SchemaPath → Schema → Prop where
  | self {s : Schema} : Contains s [] s
  | under {s t u : Schema} {tokens rest : SchemaPath}
      (hholds : s.form.Holds tokens t) (hcontains : Contains t rest u) :
      Contains s (tokens ++ rest) u

/-- The nodes of a root: those of its form, and those of its definitions. -/
inductive Schema.Walked (root : Schema) : SchemaPath → Schema → Prop where
  | form {path : SchemaPath} {s : Schema} (hcontains : root.Contains path s) :
      Walked root path s
  | definition {name : String} {path : SchemaPath} {definition s : Schema}
      (hname : root.definition? name = some definition)
      (hcontains : definition.Contains path s) :
      Walked root (Keyword.definitions.name :: name :: path) s

theorem Entries.sizeOf_lt_of_get? {lo : Option String}
    {schemas : Entries Schema lo} {key : String} {s : Schema}
    (hkey : schemas.get? key = some s) : sizeOf s < sizeOf schemas := by
  induction schemas with
  | nil => cases hkey
  | cons first above value rest ih =>
      rw [Entries.cons.sizeOf_spec]
      by_cases hfirst : key = first
      · rw [Entries.get?_cons, if_pos hfirst] at hkey
        cases hkey
        omega
      · rw [Entries.get?_cons, if_neg hfirst] at hkey
        have hlt := ih hkey
        omega

namespace Form.Holds

variable {form : Form} {tokens tokens' : SchemaPath} {s t : Schema}

theorem sizeOf_lt (hs : form.Holds tokens s) : sizeOf s < sizeOf form := by
  cases hs with
  | elements =>
      rw [Form.elements.sizeOf_spec]
      omega
  | values =>
      rw [Form.values.sizeOf_spec]
      omega
  | required hkey =>
      have hlt := Entries.sizeOf_lt_of_get? hkey
      rw [Form.properties.sizeOf_spec, Option.some.sizeOf_spec]
      omega
  | optional hkey =>
      have hlt := Entries.sizeOf_lt_of_get? hkey
      rw [Form.properties.sizeOf_spec, Option.some.sizeOf_spec]
      omega
  | branch hname =>
      have hlt := Entries.sizeOf_lt_of_get? hname
      rw [Form.discriminator.sizeOf_spec]
      omega

/-- The schemas right below a form are equally far away from it. -/
theorem length_eq (hs : form.Holds tokens s) (ht : form.Holds tokens' t) :
    tokens.length = tokens'.length := by
  cases hs <;> cases ht <;> rfl

theorem unique (hs : form.Holds tokens s) (ht : form.Holds tokens' t)
    (htokens : tokens = tokens') :
    s = t := by
  cases hs <;> cases ht <;> simp_all [Keyword.name]

/-- No step below a form leads to a definition. -/
theorem exists_cons (hs : form.Holds tokens s) :
    ∃ keyword : Keyword, ∃ rest, tokens = keyword.name :: rest ∧
      keyword ≠ .definitions := by
  cases hs
  case elements => exact ⟨.elements, _, rfl, by decide⟩
  case values => exact ⟨.values, _, rfl, by decide⟩
  case required => exact ⟨.properties, _, rfl, by decide⟩
  case optional => exact ⟨.optionalProperties, _, rfl, by decide⟩
  case branch => exact ⟨.discriminator, _, rfl, by decide⟩

end Form.Holds

namespace Schema

variable {root s t u : Schema} {path tokens rest : SchemaPath}

theorem sizeOf_form_lt (s : Schema) : sizeOf s.form < sizeOf s := by
  obtain ⟨definitions, form⟩ := s
  rw [Schema.mk.sizeOf_spec]
  change sizeOf form < _
  omega

/-- What holds of a schema when it holds of those right below it holds of every
schema. -/
@[elab_as_elim]
theorem holdsInduction {motive : Schema → Prop}
    (step : ∀ s : Schema, (∀ tokens t, s.form.Holds tokens t → motive t) →
      motive s) (s : Schema) :
    motive s := by
  induction hsize : sizeOf s using Nat.strongRecOn generalizing s with
  | ind size ih =>
      apply step
      intro tokens t hholds
      have hlt : sizeOf t < sizeOf s :=
        Nat.lt_trans hholds.sizeOf_lt s.sizeOf_form_lt
      exact ih (sizeOf t) (hsize ▸ hlt) t rfl

theorem Contains.concat (hcontains : s.Contains path t)
    (hholds : t.form.Holds tokens u) :
    s.Contains (path ++ tokens) u := by
  induction hcontains with
  | self =>
      have hself := Contains.under hholds .self
      rwa [List.append_nil] at hself
  | under hfirst _ ih =>
      rw [List.append_assoc]
      exact .under hfirst (ih hholds)

theorem Contains.unique (ht : s.Contains path t) (hu : s.Contains path u) :
    t = u := by
  induction ht generalizing u with
  | self =>
      generalize hpath : ([] : SchemaPath) = path at hu
      cases hu with
      | self => rfl
      | under hholds _ =>
          obtain ⟨keyword, rest, rfl, -⟩ := hholds.exists_cons
          cases hpath
  | @under s t u' tokens rest hholds _ ih =>
      generalize hpath : tokens ++ rest = path at hu
      cases hu with
      | self =>
          obtain ⟨keyword, rest, rfl, -⟩ := hholds.exists_cons
          cases hpath
      | under hholds' hcontains' =>
          obtain ⟨htokens, hrest⟩ :=
            List.append_inj hpath (hholds.length_eq hholds')
          obtain rfl := hholds.unique hholds' htokens
          exact ih (hrest ▸ hcontains')

theorem Contains.head_ne (hcontains : s.Contains path t) {name : String} :
    path ≠ Keyword.definitions.name :: name :: rest := by
  rintro rfl
  generalize hpath : Keyword.definitions.name :: name :: rest =
    path at hcontains
  cases hcontains with
  | self => cases hpath
  | under hholds _ =>
      obtain ⟨keyword, others, rfl, hkeyword⟩ := hholds.exists_cons
      exact hkeyword (Keyword.name_injective (List.cons.inj hpath).1).symm

theorem Walked.start (root : Schema) : root.Walked [] root := .form .self

theorem Walked.concat (hwalked : root.Walked path s)
    (hholds : s.form.Holds tokens t) :
    root.Walked (path ++ tokens) t := by
  cases hwalked with
  | form hcontains => exact .form (hcontains.concat hholds)
  | definition hname hcontains =>
      exact .definition hname (hcontains.concat hholds)

/-- A path leads to one node. -/
theorem Walked.unique (hs : root.Walked path s) (ht : root.Walked path t) :
    s = t := by
  generalize hpath : path = path' at ht
  cases hs with
  | form hs =>
      cases ht with
      | form ht => exact hs.unique (hpath ▸ ht)
      | definition _ _ => exact absurd hpath hs.head_ne
  | definition hname hs =>
      cases ht with
      | form ht => exact absurd hpath.symm ht.head_ne
      | definition hname' ht =>
          cases hpath
          cases hname.symm.trans hname'
          exact hs.unique ht

/-- A path that starts like that of a definition leads into one. -/
theorem Walked.exists_definition
    (hwalked : root.Walked (Keyword.definitions.name :: rest) s) :
    ∃ name definition tail, rest = name :: tail ∧
      root.definition? name = some definition := by
  generalize hpath : Keyword.definitions.name :: rest = path at hwalked
  cases hwalked with
  | form hcontains =>
      cases hcontains with
      | self => cases hpath
      | under hholds _ =>
          obtain ⟨keyword, others, rfl, hkeyword⟩ := hholds.exists_cons
          exact absurd (Keyword.name_injective (List.cons.inj hpath).1).symm
            hkeyword
  | definition hname _ =>
      cases hpath
      exact ⟨_, _, _, rfl, hname⟩

end Schema

end SchemaForms
