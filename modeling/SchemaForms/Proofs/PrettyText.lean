import SchemaForms.Json.Reader
import SchemaForms.Proofs.QuotedText
/-!
Printed documents are read back.  A document has a list of tokens
(`Tree.tokens`): they are what is found in its text, whatever the indentation
(`Tree.lexes_prettyChars`), and they are read as the document again
(`Tree.readsBack`), if no more containers nest in it than the reader allows.  A
reader allows no more in any text (`Tree.nests_of_ofText?`).  So a value is read
from its text (`ofText?_pretty`) if it is as high as one that was read
(`height_le_of_ofText?`).
-/

namespace SchemaForms.Json

namespace Tree

mutual

/-- The tokens of a document, in the order of its text. -/
def tokens : Tree → List Token
  | null => [.null]
  | bool b => [.bool b]
  | num n => [.num n]
  | str s => [.str s]
  | arr [] => [.openArray, .closeArray]
  | arr (item :: rest) => .openArray :: item.tokens ++ itemTokens rest
  | obj [] => [.openObject, .closeObject]
  | obj ((key, item) :: rest) =>
      .openObject :: .str key :: .colon :: item.tokens ++ memberTokens rest

/-- The tokens behind an item of an array: the items that follow, and the
closing bracket. -/
def itemTokens : List Tree → List Token
  | [] => [.closeArray]
  | item :: rest => .comma :: item.tokens ++ itemTokens rest

/-- The tokens behind a member of an object: the members that follow, and the
closing brace. -/
def memberTokens : List (String × Tree) → List Token
  | [] => [.closeObject]
  | (key, item) :: rest =>
      .comma :: .str key :: .colon :: item.tokens ++ memberTokens rest

end

inductive Numberless : Tree → Prop where
  | null : Numberless null
  | bool {b : Bool} : Numberless (bool b)
  | str {s : String} : Numberless (str s)
  | arr {items : List Tree} (hitems : ∀ item ∈ items, Numberless item) :
      Numberless (arr items)
  | obj {members : List (String × Tree)}
      (hmembers : ∀ entry ∈ members, Numberless entry.2) :
      Numberless (obj members)

open Token (Lexes LexesAlone)

theorem lexesAlone_newline (level : Nat) : LexesAlone (newline level) [] := by
  apply LexesAlone.blanks
  intro c hc
  rcases List.mem_cons.1 hc with rfl | hc
  · rfl
  · rw [(List.mem_replicate.1 hc).2]
    rfl

/-- A closing bracket on a line of its own. -/
theorem lexesAlone_closing {c : Char} {token : Token}
    (htoken : Token.punctuation? c = some token) (level : Nat) :
    LexesAlone (newline level ++ [c]) [token] :=
  (lexesAlone_newline level).append (.punctuation htoken)

/-- An item on a line of its own, in front of what starts with no part of a
word. -/
theorem lexesAlone_line {item : Tree} {level : Nat} {c : Char}
    {before text : List Char} {tokens rest : List Token}
    (hitem : Lexes (item.prettyChars level) item.tokens)
    (hbefore : LexesAlone before tokens) (htext : LexesAlone (c :: text) rest)
    (hc : Token.isWordChar c = false) :
    LexesAlone (newline level ++ before ++ item.prettyChars level ++ c :: text)
      (tokens ++ item.tokens ++ rest) := by
  have hline :=
    ((lexesAlone_newline level).append hbefore).append (hitem.append htext hc)
  rwa [← List.append_assoc, List.nil_append, ← List.append_assoc] at hline

theorem lexesAlone_prettyItems {item : Tree} {items : List Tree}
    (hitems : ∀ other ∈ item :: items, ∀ level,
      Lexes (other.prettyChars level) other.tokens)
    (level : Nat) : LexesAlone (prettyItems level (item :: items))
    (item.tokens ++ itemTokens items) := by
  have hitem := hitems item List.mem_cons_self (level + 1)
  induction items generalizing item with
  | nil =>
      have hline :=
        lexesAlone_line hitem .nil (lexesAlone_closing (c := ']') rfl level) rfl
      simpa [prettyItems, itemTokens, newline] using hline
  | cons next others ih =>
      have hothers : ∀ other ∈ next :: others, ∀ level,
          Lexes (other.prettyChars level) other.tokens :=
        fun other hother => hitems other (List.mem_cons_of_mem _ hother)
      have hrest := ih hothers (hothers next List.mem_cons_self (level + 1))
      have hcomma : LexesAlone [','] [.comma] := .punctuation rfl
      have hline := lexesAlone_line hitem .nil (hcomma.append hrest) rfl
      simpa [prettyItems, itemTokens] using hline

/-- A key and a colon in front of the value of a member. -/
theorem lexesAlone_key (key : String) :
    LexesAlone (quoted key ++ [':', ' ']) [.str key, .colon] :=
  (LexesAlone.quoted key).append
    ((LexesAlone.punctuation (c := ':') rfl).append
      (.blanks (by simp [Token.isBlank])))

theorem lexesAlone_prettyMembers {key : String} {item : Tree}
    {members : List (String × Tree)}
    (hmembers : ∀ entry ∈ (key, item) :: members, ∀ level,
      Lexes (entry.2.prettyChars level) entry.2.tokens) (level : Nat) :
    LexesAlone (prettyMembers level ((key, item) :: members))
      (.str key :: .colon :: item.tokens ++ memberTokens members) := by
  have hitem := hmembers _ List.mem_cons_self (level + 1)
  induction members generalizing key item with
  | nil =>
      have hline := lexesAlone_line hitem (lexesAlone_key key)
        (lexesAlone_closing (c := '}') rfl level) rfl
      simpa [prettyMembers, memberTokens, newline] using hline
  | cons next others ih =>
      obtain ⟨nextKey, nextItem⟩ := next
      have hothers : ∀ entry ∈ (nextKey, nextItem) :: others, ∀ level,
          Lexes (entry.2.prettyChars level) entry.2.tokens :=
        fun entry hentry => hmembers entry (List.mem_cons_of_mem _ hentry)
      have hrest := ih hothers (hothers _ List.mem_cons_self (level + 1))
      have hcomma : LexesAlone [','] [.comma] := .punctuation rfl
      have hline :=
        lexesAlone_line hitem (lexesAlone_key key) (hcomma.append hrest) rfl
      simpa [prettyMembers, memberTokens] using hline

theorem lexes_word {c : Char} {word : List Char} {token : Token}
    (hword : Token.word? (c :: word) = some token)
    (hfirst : Token.isBlank c = false ∧ c ≠ '"' ∧ Token.isWordChar c = true)
    (hletters : word.all Token.isWordChar = true) : Lexes (c :: word) [token] :=
  fun _ hrest =>
    Token.ofChars?_word hword hfirst (List.all_eq_true.1 hletters) hrest

/-- The text of a document without numbers has its tokens, however far it is
indented. -/
theorem lexes_prettyChars {t : Tree} (hnumberless : t.Numberless)
    (level : Nat) :
    Lexes (t.prettyChars level) t.tokens := by
  induction hnumberless generalizing level with
  | null => exact lexes_word rfl (by decide) (by decide)
  | @bool b =>
      cases b with
      | true => exact lexes_word rfl (by decide) (by decide)
      | false => exact lexes_word rfl (by decide) (by decide)
  | @str s => exact (LexesAlone.quoted s).lexes
  | @arr items _ ih =>
      have hopen : LexesAlone ['['] [.openArray] := .punctuation rfl
      cases items with
      | nil => exact (hopen.append (.punctuation (c := ']') rfl)).lexes
      | cons item others =>
          exact (hopen.append (lexesAlone_prettyItems ih level)).lexes
  | @obj members _ ih =>
      have hopen : LexesAlone ['{'] [.openObject] := .punctuation rfl
      cases members with
      | nil => exact (hopen.append (.punctuation (c := '}') rfl)).lexes
      | cons entry others =>
          exact (hopen.append (lexesAlone_prettyMembers ih level)).lexes

/-- At most so many containers nest in a document. -/
inductive Nests : Nat → Tree → Prop where
  | null {n : Nat} : Nests n null
  | bool {n : Nat} {b : Bool} : Nests n (bool b)
  | num {n : Nat} {number : Number} : Nests n (num number)
  | str {n : Nat} {s : String} : Nests n (str s)
  | arr {n : Nat} {items : List Tree} (hitems : ∀ item ∈ items, Nests n item) :
      Nests (n + 1) (arr items)
  | obj {n : Nat} {members : List (String × Tree)}
      (hmembers : ∀ entry ∈ members, Nests n entry.2) :
      Nests (n + 1) (obj members)

/-- A document is read from its tokens, whatever follows. -/
def ReadsBack (limit depth : Nat) (t : Tree) : Prop :=
  ∀ rest stack, stack.length + depth ≤ limit →
    readValue limit (t.tokens ++ rest) stack = readRest limit rest t stack

section

variable {limit depth : Nat} {stack : List Frame}
  (hroom : stack.length + 1 + depth ≤ limit)

include hroom

/-- Behind an item, the items that follow are read one by one. -/
theorem readRest_itemTokens {items : List Tree}
    (hitems : ∀ item ∈ items, ReadsBack limit depth item) (t : Tree)
    (done : List Tree) (rest : List Token) :
    readRest limit (itemTokens items ++ rest) t (.array done :: stack) =
      readRest limit rest (.arr (done.reverse ++ t :: items)) stack := by
  induction items generalizing t done with
  | nil => simp [itemTokens, readRest]
  | cons item others ih =>
      have hitem := hitems item List.mem_cons_self
      simp only [itemTokens, List.cons_append, List.append_assoc, readRest]
      rw [hitem _ (.array (t :: done) :: stack) hroom,
        ih fun other hother => hitems other (List.mem_cons_of_mem _ hother)]
      simp

/-- Behind a member, the members that follow are read one by one. -/
theorem readRest_memberTokens {members : List (String × Tree)}
    (hmembers : ∀ entry ∈ members, ReadsBack limit depth entry.2) (key : String)
    (t : Tree) (done : List (String × Tree)) (rest : List Token) :
    readRest limit (memberTokens members ++ rest) t
        (.object done key :: stack) =
      readRest limit rest (.obj (done.reverse ++ (key, t) :: members))
        stack := by
  induction members generalizing key t done with
  | nil => simp [memberTokens, readRest]
  | cons entry others ih =>
      have hitem := hmembers entry List.mem_cons_self
      simp only [memberTokens, List.cons_append, List.append_assoc, readRest]
      rw [hitem _ (.object ((key, t) :: done) entry.1 :: stack) hroom,
        ih fun other hother => hmembers other (List.mem_cons_of_mem _ hother)]
      simp

end

/-- No document starts with a closing bracket. -/
theorem tokens_append_ne (t : Tree) (rest tail : List Token) :
    t.tokens ++ rest = .closeArray :: tail → False := by
  cases t with
  | arr items => cases items <;> exact nofun
  | obj members => cases members <;> exact nofun
  | _ => exact nofun

/-- A document is read from its tokens when the reader allows as many containers
as nest in it. -/
theorem readsBack {limit depth : Nat} {t : Tree} (hnests : t.Nests depth) :
    ReadsBack limit depth t := by
  induction hnests with
  | null => exact fun rest stack _ => rfl
  | bool => exact fun rest stack _ => rfl
  | num => exact fun rest stack _ => rfl
  | str => exact fun rest stack _ => rfl
  | @arr n items _ ih =>
      intro rest stack hroom
      have hlt : stack.length < limit := by omega
      have hinner : stack.length + 1 + n ≤ limit := by omega
      cases items with
      | nil => simp [tokens, readValue, hlt]
      | cons item others =>
          have hothers : ∀ other ∈ others, ReadsBack limit n other :=
            fun other hother => ih other (List.mem_cons_of_mem _ hother)
          rw [tokens, List.append_assoc, List.cons_append,
            readValue, if_pos hlt,
            ih item List.mem_cons_self _ (.array [] :: stack) hinner,
            readRest_itemTokens hinner hothers]
          · rfl
          · exact tokens_append_ne item _
  | @obj n members _ ih =>
      intro rest stack hroom
      have hlt : stack.length < limit := by omega
      have hinner : stack.length + 1 + n ≤ limit := by omega
      cases members with
      | nil => simp [tokens, readValue, hlt]
      | cons entry others =>
          have hothers : ∀ other ∈ others, ReadsBack limit n other.2 :=
            fun other hother => ih other (List.mem_cons_of_mem _ hother)
          simp only [tokens, List.append_assoc, List.cons_append,
            readValue, if_pos hlt]
          rw [ih entry List.mem_cons_self _
            (.object [] entry.1 :: stack) hinner,
            readRest_memberTokens hinner hothers]
          rfl

/-- A document is read from a text that has its tokens, be there blanks behind
it, by a reader that allows as many containers as nest in it. -/
theorem ofText?_of_lexes {limit : Nat} {t : Tree} {text : List Char}
    (hlexes : Lexes text t.tokens) (hnests : t.Nests limit) {blanks : String}
    (hblanks : ∀ c ∈ blanks.toList, Token.isBlank c = true) :
    ofText? limit (String.ofList text ++ blanks) = some t := by
  have hhead : ∀ c ∈ blanks.toList.head?, Token.isWordChar c = false := by
    intro c hc
    have hblank := hblanks c (List.mem_of_mem_head? hc)
    simp only [Token.isBlank, Bool.or_eq_true, beq_iff_eq] at hblank
    rcases hblank with ((rfl | rfl) | rfl) | rfl <;> decide
  have htokens : Token.ofChars? (String.ofList text ++ blanks).toList =
      some t.tokens := by
    have hempty : Token.ofChars? blanks.toList = some [] := by
      simpa using Token.ofChars?_blanks hblanks []
    rw [String.toList_append, String.toList_ofList, hlexes _ hhead, hempty]
    simp
  have hread : readValue limit (t.tokens ++ []) [] = readRest limit [] t [] :=
    readsBack hnests [] [] (by simp)
  rw [ofText?, htokens]
  rwa [List.append_nil] at hread

/-- A document without numbers is read from its text. -/
theorem ofText?_pretty {limit : Nat} {t : Tree} (hnumberless : t.Numberless)
    (hnests : t.Nests limit) {blanks : String}
    (hblanks : ∀ c ∈ blanks.toList, Token.isBlank c = true) :
    ofText? limit (t.pretty ++ blanks) = some t :=
  ofText?_of_lexes (lexes_prettyChars hnumberless 0) hnests hblanks

theorem Nests.mono {m n : Nat} {t : Tree} (hnests : t.Nests m) (hle : m ≤ n) :
    t.Nests n := by
  induction hnests generalizing n with
  | null => exact .null
  | bool => exact .bool
  | num => exact .num
  | str => exact .str
  | arr _ ih =>
      obtain ⟨n, rfl⟩ : ∃ k, n = k + 1 := ⟨n - 1, by omega⟩
      exact .arr fun item hitem => ih item hitem (Nat.le_of_succ_le_succ hle)
  | obj _ ih =>
      obtain ⟨n, rfl⟩ : ∃ k, n = k + 1 := ⟨n - 1, by omega⟩
      exact .obj fun entry hentry =>
        ih entry hentry (Nat.le_of_succ_le_succ hle)

/-- So much of the limit is left inside the open containers, and what they hold
so far nests no deeper. -/
inductive Fits (limit : Nat) : Nat → List Frame → Prop where
  | nil : Fits limit limit []
  | array {room : Nat} {done : List Tree} {stack : List Frame}
      (hstack : Fits limit (room + 1) stack)
      (hdone : ∀ item ∈ done, item.Nests room) :
      Fits limit room (.array done :: stack)
  | object {room : Nat} {done : List (String × Tree)} {key : String}
      {stack : List Frame} (hstack : Fits limit (room + 1) stack)
      (hdone : ∀ entry ∈ done, entry.2.Nests room) :
      Fits limit room (.object done key :: stack)

theorem Fits.add_length {limit room : Nat} {stack : List Frame}
    (hfits : Fits limit room stack) :
    room + stack.length = limit := by
  induction hfits with
  | nil => rfl
  | array _ _ ih | object _ _ ih =>
      rw [List.length_cons]
      omega

/-- Where one more container may be opened, some of the limit is left. -/
theorem Fits.exists_succ {limit room : Nat} {stack : List Frame}
    (hfits : Fits limit room stack) (hlt : stack.length < limit) : ∃ inner,
    room = inner + 1 := by
  have hlength := hfits.add_length
  exact ⟨room - 1, by omega⟩

theorem nests_of_ofToken? {token : Token} {t : Tree}
    (ht : ofToken? token = some t) (n : Nat) :
    t.Nests n := by
  cases token with
  | null => cases ht; exact .null
  | bool b => cases ht; exact .bool
  | num n => cases ht; exact .num
  | str s => cases ht; exact .str
  | _ => cases ht

theorem nests_arr_reverse {n : Nat} {t : Tree} {done : List Tree}
    (ht : t.Nests n) (hdone : ∀ item ∈ done, item.Nests n) :
    (arr (t :: done).reverse).Nests (n + 1) :=
  .arr fun item hitem =>
    List.forall_mem_cons.2 ⟨ht, hdone⟩ item (List.mem_reverse.1 hitem)

theorem nests_obj_reverse {n : Nat} {key : String} {t : Tree}
    {done : List (String × Tree)} (ht : t.Nests n)
    (hdone : ∀ entry ∈ done, entry.2.Nests n) :
    (obj ((key, t) :: done).reverse).Nests (n + 1) :=
  .obj fun entry hentry =>
    have hall : ∀ entry ∈ (key, t) :: done, entry.2.Nests n :=
      List.forall_mem_cons.2 ⟨ht, hdone⟩
    hall entry (List.mem_reverse.1 hentry)

/-- What is read nests no deeper than the limit, where the open containers fit
in. -/
theorem nests_of_readValue {limit : Nat} :
    (∀ tokens stack, ∀ room, Fits limit room stack →
      ∀ u, readValue limit tokens stack = some u → u.Nests limit) ∧
    ∀ rest t stack, ∀ room, Fits limit room stack → t.Nests room →
      ∀ u, readRest limit rest t stack = some u → u.Nests limit := by
  apply readValue.mutual_induct limit
  case case1 =>
    intro stack hlt rest ih room hfits u hread
    obtain ⟨inner, rfl⟩ := hfits.exists_succ hlt
    rw [readValue, if_pos hlt] at hread
    exact ih _ hfits (.arr (by simp)) u hread
  case case2 =>
    intro stack hlt rest hopen ih room hfits u hread
    obtain ⟨inner, rfl⟩ := hfits.exists_succ hlt
    rw [readValue, if_pos hlt] at hread
    · exact ih inner (.array hfits (by simp)) u hread
    · exact hopen
  case case3 | case7 =>
    intro rest stack hfull room _ u hread
    rw [readValue.eq_def] at hread
    simp [hfull] at hread
  case case4 =>
    intro stack hlt rest ih room hfits u hread
    obtain ⟨inner, rfl⟩ := hfits.exists_succ hlt
    rw [readValue, if_pos hlt] at hread
    exact ih _ hfits (.obj (by simp)) u hread
  case case5 =>
    intro stack hlt key rest ih room hfits u hread
    obtain ⟨inner, rfl⟩ := hfits.exists_succ hlt
    rw [readValue, if_pos hlt] at hread
    exact ih inner (.object hfits (by simp)) u hread
  case case6 =>
    intro rest stack hlt hempty hkey room hfits u hread
    rw [readValue, if_pos hlt] at hread
    · cases hread
    · exact hempty
    · exact hkey
  case case8 =>
    intro token rest stack harray hobject t htoken ih room hfits u hread
    rw [readValue, htoken] at hread
    · exact ih room hfits (nests_of_ofToken? htoken room) u hread
    · exact harray
    · exact hobject
  case case9 =>
    intro token rest stack harray hobject htoken room _ u hread
    rw [readValue, htoken] at hread
    · cases hread
    · exact harray
    · exact hobject
  case case10 => exact fun _ _ _ _ hread => by cases hread
  case case11 =>
    intro t room hfits ht u hread
    cases hfits
    cases hread
    exact ht
  case case12 =>
    intro rest t done stack ih room hfits ht u hread
    cases hfits with
    | array hstack hdone =>
        exact ih room (.array hstack (List.forall_mem_cons.2 ⟨ht, hdone⟩)) u
          hread
  case case13 =>
    intro rest t done stack ih room hfits ht u hread
    cases hfits with
    | array hstack hdone =>
        exact ih _ hstack (nests_arr_reverse ht hdone) u hread
  case case14 =>
    intro next rest t done key stack ih room hfits ht u hread
    cases hfits with
    | object hstack hdone =>
        exact ih room (.object hstack (List.forall_mem_cons.2 ⟨ht, hdone⟩)) u
          hread
  case case15 =>
    intro rest t done key stack ih room hfits ht u hread
    cases hfits with
    | object hstack hdone =>
        exact ih _ hstack (nests_obj_reverse ht hdone) u hread
  case case16 =>
    intro rest t stack hend hitem hclose hmember hcloseObject room
      hfits ht u hread
    rw [readRest] at hread
    · cases hread
    all_goals assumption

/-- A reader allows no more containers to nest in a text than its limit. -/
theorem nests_of_ofText? {limit : Nat} {text : String} {t : Tree}
    (hread : ofText? limit text = some t) : t.Nests limit := by
  rw [ofText?, Option.bind_eq_bind, Option.bind_eq_some_iff] at hread
  obtain ⟨tokens, -, hread⟩ := hread
  exact nests_of_readValue.1 tokens [] limit .nil t hread

theorem itemValues_eq_map (items : List Tree) :
    itemValues items = items.map value := by
  induction items with
  | nil => rfl
  | cons item rest ih => rw [itemValues, ih, List.map_cons]

theorem memberValues_eq_map (members : List (String × Tree)) :
    memberValues members = members.map fun entry =>
      (entry.1, entry.2.value) := by
  induction members with
  | nil => rfl
  | cons entry rest ih => rw [memberValues, ih, List.map_cons]

theorem ofItems_eq_map (items : List Json) :
    ofItems items = items.map ofJson := by
  induction items with
  | nil => rfl
  | cons item rest ih => rw [ofItems, ih, List.map_cons]

theorem ofMembers_eq_map {lo : Option String} (members : Entries Json lo) :
    ofMembers members = members.toList.map fun entry =>
      (entry.1, ofJson entry.2) := by
  induction members with
  | nil => rfl
  | cons key above value rest ih =>
      rw [ofMembers, ih, Entries.toList_cons, List.map_cons]

/-- What every part of an object has, the object written in key order has in its
place. -/
theorem forall_mem_ofMembers {members : KeyMap Json} {P : Tree → Prop}
    (hmembers : ∀ key value, members.get? key = some value → P (ofJson value)) :
    ∀ entry ∈ ofMembers members, P entry.2 := by
  intro entry hentry
  rw [ofMembers_eq_map] at hentry
  obtain ⟨⟨key, value⟩, hmem, rfl⟩ := List.mem_map.1 hentry
  exact hmembers key value (Entries.get?_eq_some_iff.2 hmem)

/-- The document of a value has this value. -/
@[simp] theorem value_ofJson (v : Json) : (ofJson v).value = v := by
  induction v using heightInduction with
  | step v ih =>
      cases v with
      | arr items =>
          have hitems : (items.map ofJson).map Tree.value = items := by
            rw [List.map_map]
            exact (List.map_congr_left fun item hitem =>
              ih item (height_lt_arr hitem)).trans
                (List.map_id items)
          rw [ofJson, value, ofItems_eq_map, itemValues_eq_map, hitems]
      | obj members =>
          have hmembers :
              (ofMembers members).map (fun entry => (entry.1, entry.2.value)) =
              members.toList := by
            rw [ofMembers_eq_map, List.map_map]
            refine (List.map_congr_left fun entry hentry => ?_).trans
              (List.map_id members.toList)
            exact congrArg (entry.1, ·)
              (ih entry.2 (height_lt_obj (Entries.get?_eq_some_iff.2 hentry)))
          rw [ofJson, value, memberValues_eq_map, hmembers,
            KeyMap.ofList_toList]
      | _ => rfl

theorem nests_ofJson (v : Json) : (ofJson v).Nests v.height := by
  induction v using heightInduction with
  | step v ih =>
      cases v with
      | null => exact .null
      | bool b => exact .bool
      | num n => exact .num
      | str s => exact .str
      | arr items =>
          refine .arr fun t ht => ?_
          rw [ofItems_eq_map] at ht
          obtain ⟨item, hitem, rfl⟩ := List.mem_map.1 ht
          exact (ih item (height_lt_arr hitem)).mono
            (heightOfItems_le_iff.1 (Nat.le_refl _) item hitem)
      | obj members =>
          refine .obj (forall_mem_ofMembers fun key value hvalue => ?_)
          exact (ih value (height_lt_obj hvalue)).mono
            (heightOfMembers_le_iff.1 (Nat.le_refl _) key value hvalue)

/-- The value of a document is as high at most as containers nest in the
document. -/
theorem height_value_le {n : Nat} {t : Tree} (hnests : t.Nests n) :
    t.value.height ≤ n := by
  induction hnests with
  | @arr n items _ ih =>
      rw [value, height, itemValues_eq_map]
      refine Nat.succ_le_succ (heightOfItems_le_iff.2 ?_)
      exact List.forall_mem_map.2 ih
  | @obj n members _ ih =>
      rw [value, height, memberValues_eq_map]
      refine Nat.succ_le_succ (heightOfMembers_le_iff.2 ?_)
      intro key value hvalue
      obtain ⟨entry, hentry, heq⟩ :=
        List.mem_map.1 (KeyMap.mem_of_get?_ofList hvalue)
      cases heq
      exact ih entry hentry
  | _ => exact Nat.zero_le _

end Tree

/-- A value that is read is no higher than the limit. -/
theorem height_le_of_ofText? {limit : Nat} {text : String} {v : Json}
    (hread : ofText? limit text = some v) : v.height ≤ limit := by
  obtain ⟨t, ht, rfl⟩ := Option.map_eq_some_iff.1 hread
  exact Tree.height_value_le (Tree.nests_of_ofText? ht)

/-- A value without numbers that is no higher than the limit is read from its
text. -/
theorem ofText?_pretty {limit : Nat} {v : Json}
    (hnumberless : (Tree.ofJson v).Numberless) (hheight : v.height ≤ limit)
    {blanks : String} (hblanks : ∀ c ∈ blanks.toList, Token.isBlank c = true) :
    ofText? limit ((Tree.ofJson v).pretty ++ blanks) = some v := by
  rw [ofText?, Tree.ofText?_pretty hnumberless
    ((Tree.nests_ofJson v).mono hheight) hblanks,
    Option.map_some, Tree.value_ofJson]

end SchemaForms.Json
