/-!
Maps with string keys in ascending key order.  Strings are compared code point
by code point, which is also the order of their UTF-8 bytes.  The order is part
of the type: an entry carries the proof that its key lies above the key before
it, so a key occurs once and two maps with the same entries are equal.
`get?_insert`, `get?_erase` and `get?_map` say what each operation does to the
look-up, and `ext_get?` that the look-up determines the map.
-/

namespace SchemaForms

/-- A key may stand behind the key `lo`, or anywhere when no key precedes it. -/
def Above : Option String → String → Prop
  | none, _ => True
  | some lo, key => lo < key

theorem Above.trans {lo : Option String} {key next : String} (h : Above lo key)
    (h' : key < next) :
    Above lo next := by
  cases lo with
  | none => trivial
  | some lo => exact String.lt_trans h h'

/-- Entries in ascending key order, all of them above `lo`. -/
inductive Entries (α : Type) : Option String → Type where
  | nil {lo : Option String} : Entries α lo
  | cons {lo : Option String} (key : String) (above : Above lo key) (value : α)
      (rest : Entries α (some key)) : Entries α lo

/-- A map from strings, ordered by key.  A type that nests maps of itself writes
`Entries _ none`, since the kernel looks for the inductive type and not for its
abbreviation. -/
abbrev KeyMap (α : Type) := Entries α none

abbrev KeySet := KeyMap Unit

namespace Entries

variable {α β γ : Type} {lo : Option String}

instance decidableAbove (lo : Option String) (key : String) :
    Decidable (Above lo key) :=
  match lo with
  | none => .isTrue trivial
  | some lo => inferInstanceAs (Decidable (lo < key))

def toList : {lo : Option String} → Entries α lo → List (String × α)
  | _, .nil => []
  | _, .cons key _ value rest => (key, value) :: rest.toList

def keys (m : Entries α lo) : List String :=
  m.toList.map Prod.fst

def get? (key : String) : {lo : Option String} → Entries α lo → Option α
  | _, .nil => none
  | _, .cons k _ value rest => if key = k then some value else rest.get? key

def contains (m : Entries α lo) (key : String) : Bool :=
  (m.get? key).isSome

def size : {lo : Option String} → Entries α lo → Nat
  | _, .nil => 0
  | _, .cons _ _ _ rest => rest.size + 1

def isEmpty : Entries α lo → Bool
  | .nil => true
  | .cons .. => false

def map (f : α → β) : {lo : Option String} → Entries α lo → Entries β lo
  | _, .nil => .nil
  | _, .cons key above value rest => .cons key above (f value) (rest.map f)

/-- Binds `key`, which may stand behind `lo`, in place of any earlier binding of
it. -/
def insertAbove (key : String) (value : α) :
    {lo : Option String} → Above lo key → Entries α lo → Entries α lo
  | _, above, .nil => .cons key above value .nil
  | _, above, .cons k hk v rest =>
      if before : Above (some key) k then
        .cons key above value (.cons k before v rest)
      else if same : key = k then .cons k hk value rest
      else
        have after : Above (some k) key := Decidable.byContradiction fun h =>
          same (String.le_antisymm h before)
        .cons k hk v (rest.insertAbove key value after)

/-- The entries behind `key`, seen from a bound below `key`. -/
def widen {key : String} (above : Above lo key) :
    Entries α (some key) → Entries α lo
  | .nil => .nil
  | .cons k hk v rest => .cons k (above.trans hk) v rest

def erase (key : String) : {lo : Option String} → Entries α lo → Entries α lo
  | _, .nil => .nil
  | _, .cons k hk v rest =>
      if key = k then rest.widen hk else .cons k hk v (rest.erase key)

/-- Equality of maps is equality of their entries, one by one. -/
def decEq [DecidableEq α] : {lo : Option String} → (m n : Entries α lo) →
    Decidable (m = n)
  | _, .nil, .nil => isTrue rfl
  | _, .nil, .cons .. => isFalse nofun
  | _, .cons .., .nil => isFalse nofun
  | _, .cons k hk v rest, .cons k' hk' v' rest' =>
      if same : k = k' then by
        subst same
        exact
          if value : v = v' then
            match decEq rest rest' with
            | isTrue h => isTrue (by rw [value, h])
            | isFalse h => isFalse fun e => h (by injection e)
          else isFalse fun e => value (by injection e)
      else isFalse fun e => same (by injection e)

instance [DecidableEq α] : DecidableEq (Entries α lo) := decEq

@[simp] theorem toList_nil : (.nil : Entries α lo).toList = [] := rfl

@[simp] theorem toList_cons {key : String} {above : Above lo key} {value : α}
    {rest : Entries α (some key)} :
    (Entries.cons key above value rest).toList = (key, value) :: rest.toList :=
  rfl

@[simp] theorem toList_map (f : α → β) (m : Entries α lo) :
    (m.map f).toList = m.toList.map fun entry => (entry.1, f entry.2) := by
  induction m with
  | nil => rfl
  | cons key above value rest ih => simp [map, ih]

@[simp] theorem size_eq_length (m : Entries α lo) :
    m.size = m.toList.length := by
  induction m with
  | nil => rfl
  | cons key above value rest ih => simp [size, ih]

/-- Every key of a map lies above the bound the map was built behind. -/
theorem above_of_mem_toList {m : Entries α lo} {key : String} {value : α}
    (h : (key, value) ∈ m.toList) : Above lo key := by
  induction m with
  | nil => simp at h
  | cons k above v rest ih =>
      rcases List.mem_cons.1 h with h | h
      · cases h
        exact above
      · exact above.trans (ih h)

/-- The entries stand in key order. -/
theorem toList_pairwise (m : Entries α lo) :
    m.toList.Pairwise fun entry next => entry.1 < next.1 := by
  induction m with
  | nil => exact .nil
  | cons key above value rest ih =>
      rw [toList_cons, List.pairwise_cons]
      exact ⟨fun entry hentry => above_of_mem_toList hentry, ih⟩

theorem nodup_keys (m : Entries α lo) : m.keys.Nodup := by
  rw [keys, List.Nodup, List.pairwise_map]
  apply m.toList_pairwise.imp
  intro entry next hlt heq
  exact String.lt_irrefl _ (heq ▸ hlt)

@[simp] theorem get?_nil (key : String) :
    (.nil : Entries α lo).get? key = none := rfl

@[simp] theorem get?_cons (key k : String) {above : Above lo k} {value : α}
    {rest : Entries α (some k)} :
    (Entries.cons k above value rest).get? key = if key = k then some value
      else rest.get? key := rfl

/-- A map binds exactly the entries of its list. -/
theorem get?_eq_some_iff {m : Entries α lo} {key : String} {value : α} :
    m.get? key = some value ↔ (key, value) ∈ m.toList := by
  induction m with
  | nil => simp
  | cons k above v rest ih =>
      by_cases h : key = k
      · subst h
        have absent : ∀ w, (key, w) ∉ rest.toList := fun w hw =>
          String.lt_irrefl key (above_of_mem_toList hw)
        simp [absent, eq_comm]
      · simp [h, ih]

theorem contains_iff {m : Entries α lo} {key : String} :
    m.contains key = true ↔ ∃ value, m.get? key = some value :=
  Option.isSome_iff_exists

/-- The keys of a map are the bound ones. -/
theorem mem_keys_iff {m : Entries α lo} {key : String} :
    key ∈ m.keys ↔ m.contains key = true := by
  rw [keys, List.mem_map, contains_iff]
  constructor
  · rintro ⟨⟨key, value⟩, hmem, rfl⟩
    exact ⟨value, get?_eq_some_iff.2 hmem⟩
  · rintro ⟨value, hvalue⟩
    exact ⟨(key, value), get?_eq_some_iff.1 hvalue, rfl⟩

/-- Nothing at or below the bound is bound. -/
theorem get?_eq_none_of_not_above {m : Entries α lo} {key : String}
    (h : ¬ Above lo key) :
    m.get? key = none := by
  cases found : m.get? key with
  | none => rfl
  | some value =>
      exact absurd (above_of_mem_toList (get?_eq_some_iff.1 found)) h

/-- The key an entry stands behind is not bound again. -/
@[simp] theorem get?_bound {key : String} (m : Entries α (some key)) :
    m.get? key = none :=
  get?_eq_none_of_not_above fun above => String.lt_irrefl key above

/-- What the entries behind a first one bind is bound. -/
theorem get?_cons_of_rest {key k : String} {above : Above lo k}
    {value other : α} {rest : Entries α (some k)}
    (hrest : rest.get? key = some other) :
    (Entries.cons k above value rest).get? key = some other := by
  rw [get?_cons, if_neg, hrest]
  rintro rfl
  simp at hrest

/-- No key below the bound is bound. -/
theorem get?_of_lt {key bound : String} (m : Entries α (some bound))
    (h : key < bound) :
    m.get? key = none :=
  get?_eq_none_of_not_above fun above =>
    String.lt_irrefl key (String.lt_trans h above)

@[simp] theorem get?_map (f : α → β) (m : Entries α lo) (key : String) :
    (m.map f).get? key = (m.get? key).map f := by
  induction m with
  | nil => rfl
  | cons k above value rest ih =>
      by_cases h : key = k <;> simp [map, h, ih]

theorem get?_insertAbove (key key' : String) (value : α) (above : Above lo key)
    (m : Entries α lo) :
    (m.insertAbove key value above).get? key' = if key' = key then some value
      else m.get? key' := by
  induction m with
  | nil => simp [insertAbove]
  | cons k hk v rest ih =>
      rw [insertAbove]
      split
      · rfl
      · split
        · rename_i same
          subst same
          by_cases h : key' = key <;> simp [h]
        · rename_i same
          by_cases h : key' = k
          · subst h
            simp [Ne.symm same]
          · rw [get?_cons, if_neg h, get?_cons, if_neg h, ih]

@[simp] theorem get?_widen {key key' : String} (above : Above lo key)
    (m : Entries α (some key)) : (m.widen above).get? key' = m.get? key' := by
  cases m <;> rfl

theorem get?_erase (key key' : String) (m : Entries α lo) :
    (m.erase key).get? key' = if key' = key then none else m.get? key' := by
  induction m with
  | nil => simp [erase]
  | cons k above v rest ih =>
      rw [erase]
      split
      · rename_i same
        subst same
        by_cases h : key' = key
        · subst h
          simp
        · simp [h]
      · rename_i other
        by_cases h : key' = k
        · subst h
          simp [Ne.symm other]
        · simp [h, ih]

@[simp] theorem toList_widen {key : String} (above : Above lo key)
    (m : Entries α (some key)) :
    (m.widen above).toList = m.toList := by
  cases m <;> rfl

/-- Without a key, the others stay in their order. -/
theorem keys_erase (key : String) (m : Entries α lo) :
    (m.erase key).keys = m.keys.filter (· ≠ key) := by
  induction m with
  | nil => rfl
  | cons k above v rest ih =>
      rw [erase, keys, keys, toList_cons, List.map_cons]
      split
      · rename_i same
        subst same
        have hrest : (rest.toList.map Prod.fst).filter (· ≠ key) =
            rest.toList.map Prod.fst := by
          rw [List.filter_eq_self]
          intro other hother
          obtain ⟨entry, hentry, rfl⟩ := List.mem_map.1 hother
          have habove : key < entry.1 := above_of_mem_toList hentry
          simpa using fun heq : entry.1 = key =>
            String.lt_irrefl key (heq ▸ habove)
        rw [toList_widen, List.filter_cons_of_neg (by simp), hrest]
      · rename_i other
        rw [List.filter_cons_of_pos (by simpa using Ne.symm other), toList_cons,
          List.map_cons]
        exact congrArg _ ih

/-- Two maps with the same look-up are equal. -/
theorem ext_get? {m n : Entries α lo} (h : ∀ key, m.get? key = n.get? key) :
    m = n := by
  induction m with
  | nil =>
      cases n with
      | nil => rfl
      | cons k above v rest => simpa using h k
  | cons k above v rest ih =>
      cases n with
      | nil => simpa using h k
      | cons k' above' v' rest' =>
          have same : k = k' := by
            refine String.le_antisymm (fun lt => ?_) (fun lt => ?_)
            · have found := h k'
              rw [get?_cons, get?_cons, if_pos rfl] at found
              by_cases e : k' = k
              · exact String.lt_irrefl k (e ▸ lt)
              · rw [if_neg e, get?_of_lt rest lt] at found
                cases found
            · have found := h k
              rw [get?_cons, get?_cons, if_pos rfl] at found
              by_cases e : k = k'
              · exact String.lt_irrefl k' (e ▸ lt)
              · rw [if_neg e, get?_of_lt rest' lt] at found
                cases found
          subst same
          have value : v = v' := by simpa using h k
          have tail : rest = rest' := ih fun key => by
            by_cases hk : key = k
            · subst hk
              simp
            · simpa [hk] using h key
          rw [value, tail]

end Entries

namespace KeyMap

variable {α : Type}

def insert (m : KeyMap α) (key : String) (value : α) : KeyMap α :=
  m.insertAbove key value trivial

/-- The map of a list of entries, where a later entry replaces an earlier one of
the same key. -/
def ofList (entries : List (String × α)) : KeyMap α :=
  entries.foldl (fun m entry => insert m entry.1 entry.2) .nil

@[simp] theorem get?_insert (m : KeyMap α) (key key' : String) (value : α) :
    (insert m key value).get? key' = if key' = key then some value
      else m.get? key' :=
  Entries.get?_insertAbove ..

/-- The last entry of a key decides what the key is bound to. -/
theorem ofList_concat (entries : List (String × α)) (key : String) (value : α) :
    ofList (entries ++ [(key, value)]) = insert (ofList entries) key value := by
  simp [ofList]

/-- What a list says of a key last is what its map binds the key to. -/
theorem get?_ofList (entries : List (String × α)) (key : String) :
    (ofList entries).get? key = entries.reverse.lookup key := by
  have hreverse : ∀ entries : List (String × α),
      (ofList entries.reverse).get? key = entries.lookup key := by
    intro entries
    induction entries with
    | nil => rfl
    | cons entry rest ih =>
        obtain ⟨k, value⟩ := entry
        rw [List.reverse_cons, ofList_concat, get?_insert, ih]
        by_cases h : key = k
        · simp [h]
        · simp [List.lookup_cons, beq_false_of_ne h, h]
  rw [← hreverse, List.reverse_reverse]

theorem mem_of_get?_ofList {entries : List (String × α)} {key : String}
    {value : α} (hget : (ofList entries).get? key = some value) :
    (key, value) ∈ entries := by
  rw [get?_ofList] at hget
  obtain ⟨before, behind, hentries, -⟩ := List.lookup_eq_some_iff.1 hget
  rw [← List.mem_reverse, hentries]
  simp

@[simp] theorem ofList_toList (m : KeyMap α) : ofList m.toList = m := by
  apply Entries.ext_get?
  intro key
  cases hget : (ofList m.toList).get? key with
  | some value =>
      exact (Entries.get?_eq_some_iff.2 (mem_of_get?_ofList hget)).symm
  | none =>
      rw [eq_comm, Option.eq_none_iff_forall_ne_some]
      intro value hvalue
      rw [get?_ofList, List.lookup_eq_none_iff] at hget
      have hne :=
        hget (key, value)
          (List.mem_reverse.2 (Entries.get?_eq_some_iff.1 hvalue))
      simp at hne

end KeyMap

namespace KeySet

def ofList (items : List String) : KeySet :=
  KeyMap.ofList (items.map fun item => (item, ()))

def insert (s : KeySet) (item : String) : KeySet :=
  KeyMap.insert s item ()

theorem contains_insert {s : KeySet} {item other : String} :
    (insert s item).contains other = true ↔ other = item ∨
      s.contains other = true := by
  rw [Entries.contains, insert, KeyMap.get?_insert]
  by_cases h : other = item <;> simp [h, Entries.contains]

theorem contains_ofList {items : List String} {item : String} :
    (ofList items).contains item = true ↔ item ∈ items := by
  rw [Entries.contains, ofList, KeyMap.get?_ofList, List.lookup_isSome_iff]
  simp

/-- Two sets with the same strings are equal. -/
theorem ext_contains {s t : KeySet}
    (h : ∀ item, s.contains item = true ↔ t.contains item = true) :
    s = t := by
  apply Entries.ext_get?
  intro item
  have hitem := h item
  simp only [Entries.contains] at hitem
  cases hs : s.get? item <;> cases ht : t.get? item <;> simp_all

end KeySet

end SchemaForms
