import SchemaForms.Proofs.PrettyText
/-!
Documents on one line are read back.  The text without blanks has the tokens of
the document, too (`Tree.lexes_compactChars`), so the document is read from it
(`Tree.ofText?_compact`).
-/

namespace SchemaForms.Json.Tree

open Token (Lexes LexesAlone)

theorem lexesAlone_compactItems {item : Tree} {items : List Tree}
    (hitems : ∀ other ∈ item :: items, Lexes other.compactChars other.tokens) :
    LexesAlone (compactItems (item :: items))
      (item.tokens ++ itemTokens items) := by
  have hitem := hitems item List.mem_cons_self
  induction items generalizing item with
  | nil => exact hitem.append (.punctuation rfl) rfl
  | cons next others ih =>
      have hothers : ∀ other ∈ next :: others,
          Lexes other.compactChars other.tokens :=
        fun other hother => hitems other (List.mem_cons_of_mem _ hother)
      have hrest := ih hothers (hothers next List.mem_cons_self)
      have hcomma : LexesAlone [','] [.comma] := .punctuation rfl
      exact hitem.append (hcomma.append hrest) rfl

/-- A member in front of what starts with no part of a word. -/
theorem lexesAlone_member {key : String} {item : Tree} {c : Char}
    {text : List Char} {rest : List Token}
    (hitem : Lexes item.compactChars item.tokens)
    (htext : LexesAlone (c :: text) rest) (hc : Token.isWordChar c = false) :
    LexesAlone (quoted key ++ ':' :: item.compactChars ++ c :: text)
      (.str key :: .colon :: item.tokens ++ rest) := by
  have hcolon : LexesAlone [':'] [.colon] := .punctuation rfl
  have hmember :=
    (LexesAlone.quoted key).append (hcolon.append (hitem.append htext hc))
  simpa using hmember

theorem lexesAlone_compactMembers {key : String} {item : Tree}
    {members : List (String × Tree)}
    (hmembers : ∀ entry ∈ (key, item) :: members,
      Lexes entry.2.compactChars entry.2.tokens) :
    LexesAlone (compactMembers ((key, item) :: members))
      (.str key :: .colon :: item.tokens ++ memberTokens members) := by
  have hitem := hmembers _ List.mem_cons_self
  induction members generalizing key item with
  | nil => exact lexesAlone_member hitem (.punctuation rfl) rfl
  | cons next others ih =>
      obtain ⟨nextKey, nextItem⟩ := next
      have hothers : ∀ entry ∈ (nextKey, nextItem) :: others,
          Lexes entry.2.compactChars entry.2.tokens :=
        fun entry hentry => hmembers entry (List.mem_cons_of_mem _ hentry)
      have hrest := ih hothers (hothers _ List.mem_cons_self)
      have hcomma : LexesAlone [','] [.comma] := .punctuation rfl
      exact lexesAlone_member hitem (hcomma.append hrest) rfl

/-- The text of a document without numbers has its tokens. -/
theorem lexes_compactChars {t : Tree} (hnumberless : t.Numberless) :
    Lexes t.compactChars t.tokens := by
  induction hnumberless with
  | null => exact lexes_word rfl (by decide) (by decide)
  | @bool b =>
      cases b with
      | true => exact lexes_word rfl (by decide) (by decide)
      | false => exact lexes_word rfl (by decide) (by decide)
  | @str s => exact (LexesAlone.quoted s).lexes
  | @arr items _ ih =>
      have hopen : LexesAlone ['['] [.openArray] := .punctuation rfl
      cases items with
      | nil => exact (hopen.append (.punctuation (c := ']') rfl)).lexes
      | cons item others =>
          exact (hopen.append (lexesAlone_compactItems ih)).lexes
  | @obj members _ ih =>
      have hopen : LexesAlone ['{'] [.openObject] := .punctuation rfl
      cases members with
      | nil => exact (hopen.append (.punctuation (c := '}') rfl)).lexes
      | cons entry others =>
          exact (hopen.append (lexesAlone_compactMembers ih)).lexes

/-- A document without numbers is read from its text on one line, by a reader
that allows as many containers as nest in it. -/
theorem ofText?_compact {limit : Nat} {t : Tree} (hnumberless : t.Numberless)
    (hnests : t.Nests limit) :
    ofText? limit t.compact = some t := by
  have hblanks : ∀ c ∈ "".toList, Token.isBlank c = true := by simp
  have hread := ofText?_of_lexes (lexes_compactChars hnumberless) hnests hblanks
  rwa [String.append_empty] at hread

end SchemaForms.Json.Tree
