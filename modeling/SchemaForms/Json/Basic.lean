import SchemaForms.KeyMap
import SchemaForms.Json.Number
/-!
JSON values.  The members of an object are a map in key order, whatever order
they were written in.
-/

namespace SchemaForms

inductive Json where
  | null
  | bool (value : Bool)
  | num (value : Number)
  | str (value : String)
  | arr (items : List Json)
  | obj (members : Entries Json none)

namespace Json

/-- The kinds of values. -/
inductive Kind where
  | null
  | boolean
  | number
  | string
  | array
  | object
deriving DecidableEq

/-- The name of a kind, as error texts give it. -/
def Kind.name : Kind → String
  | null => "null"
  | boolean => "boolean"
  | number => "number"
  | string => "string"
  | array => "array"
  | object => "object"

def kind : Json → Kind
  | null => .null
  | bool _ => .boolean
  | num _ => .number
  | str _ => .string
  | arr _ => .array
  | obj _ => .object

def object (members : List (String × Json)) : Json :=
  .obj (KeyMap.ofList members)

mutual

/-- How deep arrays and objects nest in a value: a scalar has height zero, and a
container one more than its highest member. -/
def height : Json → Nat
  | arr items => heightOfItems items + 1
  | obj members => heightOfMembers members + 1
  | _ => 0

def heightOfItems : List Json → Nat
  | [] => 0
  | item :: rest => max item.height (heightOfItems rest)

def heightOfMembers {lo : Option String} : Entries Json lo → Nat
  | .nil => 0
  | .cons _ _ value rest => max value.height (heightOfMembers rest)

end

theorem heightOfItems_le_iff {items : List Json} {n : Nat} :
    heightOfItems items ≤ n ↔ ∀ item ∈ items, item.height ≤ n := by
  induction items with
  | nil => simp [heightOfItems]
  | cons first rest ih =>
      rw [heightOfItems, Nat.max_le, ih, List.forall_mem_cons]

theorem heightOfMembers_le_iff {lo : Option String} {members : Entries Json lo}
    {n : Nat} :
    heightOfMembers members ≤ n ↔
      ∀ key member, members.get? key = some member → member.height ≤ n := by
  induction members with
  | nil => simp [heightOfMembers]
  | cons first above value rest ih =>
      rw [heightOfMembers, Nat.max_le, ih]
      constructor
      · intro hle key member hget
        by_cases hkey : key = first
        · rw [Entries.get?_cons, if_pos hkey] at hget
          cases hget
          exact hle.1
        · rw [Entries.get?_cons, if_neg hkey] at hget
          exact hle.2 key member hget
      · intro hle
        refine ⟨hle first value (by simp), ?_⟩
        intro key member hget
        exact hle key member (Entries.get?_cons_of_rest hget)

theorem height_lt_arr {items : List Json} {item : Json} (hitem : item ∈ items) :
    item.height < (arr items).height := by
  rw [height]
  exact Nat.lt_succ_of_le (heightOfItems_le_iff.1 (Nat.le_refl _) item hitem)

theorem height_lt_obj {members : KeyMap Json} {key : String} {member : Json}
    (hmember : members.get? key = some member) :
    member.height < (obj members).height := by
  rw [height]
  exact Nat.lt_succ_of_le
    (heightOfMembers_le_iff.1 (Nat.le_refl _) key member hmember)

/-- What holds of a value when it holds of all lower ones holds of every
value. -/
@[elab_as_elim]
theorem heightInduction {motive : Json → Prop}
    (step : ∀ value : Json,
      (∀ lower : Json, lower.height < value.height → motive lower) →
      motive value) (value : Json) : motive value :=
  (measure height).wf.induction value step

end Json

end SchemaForms
