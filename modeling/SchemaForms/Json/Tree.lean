import SchemaForms.Json.Basic
/-!
JSON documents as they are written: the members of an object stand in a chosen
order and may repeat a key.  A document has a value, `Tree.value`, in which the
last member of a key counts, and two texts: `compact` without any blanks and
`pretty` with one member a line, indented by two blanks a level.  The compact
text stays on one line (`newline_not_mem_compact`).
-/

namespace SchemaForms.Json

/-- A written document. -/
inductive Tree where
  | null
  | bool (value : Bool)
  | num (value : Number)
  | str (value : String)
  | arr (items : List Tree)
  | obj (members : List (String × Tree))

namespace Tree

mutual

def value : Tree → Json
  | null => .null
  | bool b => .bool b
  | num n => .num n
  | str s => .str s
  | arr items => .arr (itemValues items)
  | obj members => .obj (KeyMap.ofList (memberValues members))

def itemValues : List Tree → List Json
  | [] => []
  | item :: rest => item.value :: itemValues rest

def memberValues : List (String × Tree) → List (String × Json)
  | [] => []
  | (key, item) :: rest => (key, item.value) :: memberValues rest

end

mutual

/-- The document that writes the members of every object in key order. -/
def ofJson : Json → Tree
  | .null => null
  | .bool b => bool b
  | .num n => num n
  | .str s => str s
  | .arr items => arr (ofItems items)
  | .obj members => obj (ofMembers members)

def ofItems : List Json → List Tree
  | [] => []
  | item :: rest => ofJson item :: ofItems rest

def ofMembers {lo : Option String} : Entries Json lo → List (String × Tree)
  | .nil => []
  | .cons key _ value rest => (key, ofJson value) :: ofMembers rest

end

/-- A character inside a string: a quote, a backslash and the control characters
below U+0020 are escaped, the common ones by a letter and the others by their
code. -/
def escaped (c : Char) : List Char :=
  match c with
  | '"' => ['\\', '"']
  | '\\' => ['\\', '\\']
  | '\x08' => ['\\', 'b']
  | '\x0c' => ['\\', 'f']
  | '\n' => ['\\', 'n']
  | '\r' => ['\\', 'r']
  | '\t' => ['\\', 't']
  | c =>
      if c.toNat < 0x20 then
        ['\\', 'u', '0', '0', Nat.digitChar (c.toNat / 16),
          Nat.digitChar (c.toNat % 16)]
      else [c]

def quoted (s : String) : List Char :=
  '"' :: s.toList.flatMap escaped ++ ['"']

def integerText (n : Int) : List Char :=
  if n < 0 then '-' :: Nat.toDigits 10 n.natAbs else Nat.toDigits 10 n.natAbs

/-- A float in full decimal: a unit is 5^1074 / 10^1074, so 1074 places write it
exactly.  Zeros at the end are left out, down to one place.  This is not the
shortest text from which the float is read, as another writer might choose it;
no document that a command writes has a number in it. -/
def floatText (x : Binary64) : List Char :=
  let sign := if x.units < 0 then ['-'] else []
  let whole := Nat.toDigits 10 (x.units.natAbs / Binary64.one)
  let places :=
    Nat.toDigits 10
      (x.units.natAbs % Binary64.one * Nat.pow 5 1074 + Nat.pow 10 1074)
  let kept := (places.drop 1).reverse.dropWhile (· == '0') |>.reverse
  sign ++ whole ++ '.' :: (if kept.isEmpty then ['0'] else kept)

def numberText : Number → List Char
  | .int n => integerText n
  | .float x => floatText x

mutual

def compactChars : Tree → List Char
  | null => ['n', 'u', 'l', 'l']
  | bool true => ['t', 'r', 'u', 'e']
  | bool false => ['f', 'a', 'l', 's', 'e']
  | num n => numberText n
  | str s => quoted s
  | arr items => '[' :: compactItems items
  | obj members => '{' :: compactMembers members

/-- The items of an array and its closing bracket. -/
def compactItems : List Tree → List Char
  | [] => [']']
  | [item] => item.compactChars ++ [']']
  | item :: rest => item.compactChars ++ ',' :: compactItems rest

/-- The members of an object and its closing brace. -/
def compactMembers : List (String × Tree) → List Char
  | [] => ['}']
  | [(key, item)] => quoted key ++ ':' :: item.compactChars ++ ['}']
  | (key, item) :: rest =>
      quoted key ++ ':' :: item.compactChars ++ ',' :: compactMembers rest

end

/-- A line break and the indentation of the line behind it. -/
def newline (level : Nat) : List Char :=
  '\n' :: List.replicate (2 * level) ' '

mutual

/-- The text with one member a line, inside `level` containers. -/
def prettyChars (level : Nat) : Tree → List Char
  | null => ['n', 'u', 'l', 'l']
  | bool true => ['t', 'r', 'u', 'e']
  | bool false => ['f', 'a', 'l', 's', 'e']
  | num n => numberText n
  | str s => quoted s
  | arr [] => ['[', ']']
  | arr items => '[' :: prettyItems level items
  | obj [] => ['{', '}']
  | obj members => '{' :: prettyMembers level members

/-- The items of an array, each on a line of its own, and the closing
bracket. -/
def prettyItems (level : Nat) : List Tree → List Char
  | [] => newline level ++ [']']
  | [item] =>
      newline (level + 1) ++ item.prettyChars (level + 1) ++
        newline level ++ [']']
  | item :: rest =>
      newline (level + 1) ++ item.prettyChars (level + 1) ++ ',' ::
        prettyItems level rest

/-- The members of an object, each on a line of its own, and the closing
brace. -/
def prettyMembers (level : Nat) : List (String × Tree) → List Char
  | [] => newline level ++ ['}']
  | [(key, item)] =>
      newline (level + 1) ++ quoted key ++ ':' :: ' ' ::
        item.prettyChars (level + 1) ++ newline level ++ ['}']
  | (key, item) :: rest =>
      newline (level + 1) ++ quoted key ++ ':' :: ' ' ::
        item.prettyChars (level + 1) ++ ',' :: prettyMembers level rest

end

def compact (t : Tree) : String :=
  String.ofList t.compactChars

def pretty (t : Tree) : String :=
  String.ofList (t.prettyChars 0)

example : compact (.arr [.num (.int (-3)), .null, .str "\n\""]) =
    "[-3,null,\"\\n\\\"\"]" := by
  decide +kernel

example : pretty (.arr [.bool true, .arr [.arr []]]) =
    "[\n  true,\n  [\n    []\n  ]\n]" := by
  decide +kernel

theorem escaped_ne_newline {c d : Char} (hd : d ∈ escaped c) : d ≠ '\n' := by
  have hdigit : ∀ n, Nat.digitChar n ≠ '\n' := by
    intro n
    grind [Nat.digitChar]
  unfold escaped at hd
  split at hd
  case h_8 =>
    split at hd
    · simp only [List.mem_cons, List.not_mem_nil, or_false] at hd
      rcases hd with rfl | rfl | rfl | rfl | rfl | rfl
      · decide
      · decide
      · decide
      · decide
      · exact hdigit _
      · exact hdigit _
    · rename_i hlarge
      rw [List.mem_singleton.1 hd]
      rintro rfl
      exact hlarge (by decide)
  all_goals
    rintro rfl
    revert hd
    decide

theorem newline_not_mem_quoted (s : String) : '\n' ∉ quoted s := by
  intro hmem
  simp only [quoted, List.cons_append, List.mem_cons, List.mem_append,
    List.mem_flatMap, List.not_mem_nil, or_false] at hmem
  rcases hmem with hquote | ⟨c, -, hescaped⟩ | hquote
  · exact absurd hquote (by decide)
  · exact escaped_ne_newline hescaped rfl
  · exact absurd hquote (by decide)

theorem newline_not_mem_toDigits (n : Nat) : '\n' ∉ Nat.toDigits 10 n := by
  intro hmem
  exact absurd (Nat.isDigit_of_mem_toDigits (by decide) (Nat.le_refl 10) hmem)
    (by decide)

theorem newline_not_mem_numberText (n : Number) : '\n' ∉ numberText n := by
  cases n with
  | int n =>
      rw [numberText, integerText]
      split <;> simp [newline_not_mem_toDigits]
  | float x =>
      have hkept : ∀ digits : List Char, '\n' ∉ digits →
          '\n' ∉ (digits.drop 1).reverse.dropWhile (· == '0') := by
        intro digits hdigits hmem
        have hreverse := (List.dropWhile_sublist _).subset hmem
        exact hdigits (List.mem_of_mem_drop (List.mem_reverse.1 hreverse))
      simp only [numberText, floatText, List.mem_append, List.mem_cons, not_or]
      refine ⟨⟨?_, newline_not_mem_toDigits _⟩, by decide, ?_⟩
      · split <;> simp
      · split
        · decide
        · rw [List.mem_reverse]
          exact hkept _ (newline_not_mem_toDigits _)

mutual

theorem newline_not_mem_compactChars : (t : Tree) → '\n' ∉ t.compactChars
  | null => by decide
  | bool true => by decide
  | bool false => by decide
  | num n => newline_not_mem_numberText n
  | str s => newline_not_mem_quoted s
  | arr items => by
      have hitems := newline_not_mem_compactItems items
      simp [compactChars, hitems]
  | obj members => by
      have hmembers := newline_not_mem_compactMembers members
      simp [compactChars, hmembers]

theorem newline_not_mem_compactItems : (items : List Tree) →
    '\n' ∉ compactItems items
  | [] => by decide
  | [item] => by
      have hitem := newline_not_mem_compactChars item
      simp [compactItems, hitem]
  | item :: next :: rest => by
      have hitem := newline_not_mem_compactChars item
      have hrest := newline_not_mem_compactItems (next :: rest)
      simp [compactItems, hitem, hrest]

theorem newline_not_mem_compactMembers :
    (members : List (String × Tree)) → '\n' ∉ compactMembers members
  | [] => by decide
  | [(key, item)] => by
      have hitem := newline_not_mem_compactChars item
      simp [compactMembers, hitem, newline_not_mem_quoted]
  | (key, item) :: next :: rest => by
      have hitem := newline_not_mem_compactChars item
      have hrest := newline_not_mem_compactMembers (next :: rest)
      simp [compactMembers, hitem, hrest, newline_not_mem_quoted]

end

/-- A compact text stays on one line. -/
theorem newline_not_mem_compact (t : Tree) : '\n' ∉ t.compact.toList := by
  rw [compact, String.toList_ofList]
  exact newline_not_mem_compactChars t

end Tree

end SchemaForms.Json
