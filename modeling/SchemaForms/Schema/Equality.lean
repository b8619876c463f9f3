import SchemaForms.Schema.Basic
/-!
Equality of schemas is decidable: two schemas are compared form by form, and
maps of schemas entry by entry.
-/

namespace SchemaForms

mutual

def Schema.decEq : (s t : Schema) → Decidable (s = t)
  | ⟨d, f⟩, ⟨d', f'⟩ =>
      match decEqMap? d d', f.decEq f' with
      | isTrue h, isTrue h' => isTrue (by rw [h, h'])
      | isFalse h, _ => isFalse fun e => h (by injection e)
      | _, isFalse h => isFalse fun e => h (by injection e)

def Form.decEq : (f g : Form) → Decidable (f = g)
  | .empty, .empty => isTrue rfl
  | .ref n, .ref n' =>
      if h : n = n' then isTrue (by rw [h]) else isFalse (by simpa using h)
  | .type t, .type t' =>
      if h : t = t' then isTrue (by rw [h]) else isFalse (by simpa using h)
  | .enum v, .enum v' =>
      if h : v = v' then isTrue (by rw [h]) else isFalse (by simpa using h)
  | .elements s, .elements s' =>
      match s.decEq s' with
      | isTrue h => isTrue (by rw [h])
      | isFalse h => isFalse (by simpa using h)
  | .properties r o a, .properties r' o' a' =>
      match decEqMap? r r', decEqMap? o o' with
      | isTrue h, isTrue h' =>
          if h'' : a = a' then isTrue (by rw [h, h', h''])
          else isFalse fun e => h'' (by injection e)
      | isFalse h, _ => isFalse fun e => h (by injection e)
      | _, isFalse h => isFalse fun e => h (by injection e)
  | .values s, .values s' =>
      match s.decEq s' with
      | isTrue h => isTrue (by rw [h])
      | isFalse h => isFalse (by simpa using h)
  | .discriminator t m, .discriminator t' m' =>
      match decEqMap m m' with
      | isTrue h =>
          if h' : t = t' then isTrue (by rw [h, h'])
          else isFalse fun e => h' (by injection e)
      | isFalse h => isFalse fun e => h (by injection e)
  | .empty, .ref _ | .empty, .type _ | .empty, .enum _ | .empty, .elements _
  | .empty, .properties .. | .empty, .values _ | .empty, .discriminator ..
  | .ref _, .empty | .ref _, .type _ | .ref _, .enum _ | .ref _, .elements _
  | .ref _, .properties .. | .ref _, .values _ | .ref _, .discriminator ..
  | .type _, .empty | .type _, .ref _ | .type _, .enum _ | .type _, .elements _
  | .type _, .properties .. | .type _, .values _ | .type _, .discriminator ..
  | .enum _, .empty | .enum _, .ref _ | .enum _, .type _ | .enum _, .elements _
  | .enum _, .properties .. | .enum _, .values _ | .enum _, .discriminator ..
  | .elements _, .empty | .elements _, .ref _ | .elements _, .type _
  | .elements _, .enum _ | .elements _, .properties .. | .elements _, .values _
  | .elements _, .discriminator ..
  | .properties .., .empty | .properties .., .ref _ | .properties .., .type _
  | .properties .., .enum _ | .properties .., .elements _
  | .properties .., .values _ | .properties .., .discriminator ..
  | .values _, .empty | .values _, .ref _ | .values _, .type _
  | .values _, .enum _ | .values _, .elements _ | .values _, .properties ..
  | .values _, .discriminator ..
  | .discriminator .., .empty | .discriminator .., .ref _
  | .discriminator .., .type _ | .discriminator .., .enum _
  | .discriminator .., .elements _ | .discriminator .., .properties ..
  | .discriminator .., .values _ => isFalse nofun

def decEqMap? : (m n : Option (Entries Schema none)) → Decidable (m = n)
  | none, none => isTrue rfl
  | some m, some n =>
      match decEqMap m n with
      | isTrue h => isTrue (by rw [h])
      | isFalse h => isFalse (by simpa using h)
  | none, some _ | some _, none => isFalse nofun

def decEqMap {lo : Option String} : (m n : Entries Schema lo) →
    Decidable (m = n)
  | .nil, .nil => isTrue rfl
  | .nil, .cons .. | .cons .., .nil => isFalse nofun
  | .cons k _ s rest, .cons k' _ s' rest' =>
      if same : k = k' then by
        subst same
        exact
          match s.decEq s', decEqMap rest rest' with
          | isTrue h, isTrue h' => isTrue (by rw [h, h'])
          | isFalse h, _ => isFalse fun e => h (by injection e)
          | _, isFalse h => isFalse fun e => h (by injection e)
      else isFalse fun e => same (by injection e)

end

instance : DecidableEq Schema := Schema.decEq

instance : DecidableEq Form := Form.decEq

end SchemaForms
