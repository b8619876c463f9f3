import SchemaForms.Json.Tree
import SchemaForms.Json.Token
/-!
Strings in quotes are read back.  `Escapes` tells the three ways in which a
character is written between quotes; each of them is taken as one by the reader,
whatever stands behind it (`Escapes.splitQuoted`, `Escapes.exists_piece`), so a
quoted string is one token (`ofChars?_quoted`).  The other tokens of a text are
read one by one, too, and blanks are skipped.
-/

namespace SchemaForms.Json

open Json.Tree (escaped quoted)

namespace Token

/-- A character is written by a letter behind a backslash, by its code, or as it
is. -/
inductive Escapes (c : Char) : List Char → Prop where
  | letter {e : Char} (hletter : letterEscape? e = some c) : Escapes c ['\\', e]
  | code {high low : Char}
      (hcode : Digits.hexValue? ['0', '0', high, low] = some c.toNat)
      (hcontrol : c.toNat < 0x20) (hhigh : high ≠ '"' ∧ high ≠ '\\')
      (hlow : low ≠ '"' ∧ low ≠ '\\') :
      Escapes c ['\\', 'u', '0', '0', high, low]
  | self (hquote : c ≠ '"') (hbackslash : c ≠ '\\')
      (hcontrol : ¬ c.toNat < 0x20) : Escapes c [c]

theorem hexValue?_digitChar : ∀ n < 0x20,
    Digits.hexValue? ['0', '0', Nat.digitChar (n / 16),
      Nat.digitChar (n % 16)] = some n := by
  decide

theorem digitChar_ne (n : Nat) : Nat.digitChar n ≠ '"' ∧
    Nat.digitChar n ≠ '\\' := by
  grind [Nat.digitChar]

theorem escapes_escaped (c : Char) : Escapes c (escaped c) := by
  unfold escaped
  split
  case h_8 hquote hbackslash _ _ _ _ _ =>
    split
    · rename_i hcontrol
      exact .code (hexValue?_digitChar _ hcontrol) hcontrol (digitChar_ne _)
        (digitChar_ne _)
    · rename_i hcontrol
      exact .self hquote hbackslash hcontrol
  all_goals exact .letter rfl

variable {c : Char} {text rest : List Char}

theorem Escapes.splitQuoted (hescapes : Escapes c text) (rest : List Char) :
    splitQuoted (text ++ rest) =
      (splitQuoted rest).map fun (body, after) => (text ++ body, after) := by
  cases hescapes with
  | letter hletter => simp [Token.splitQuoted]
  | code hcode hcontrol hhigh hlow =>
      simp [Token.splitQuoted, hhigh, hlow]
      rfl
  | self hquote hbackslash hcontrol => simp [Token.splitQuoted, hbackslash]

/-- A unit that is no surrogate spells its character. -/
theorem spelled?_unit {n : Nat} (hlt : n < 0xD800) (pieces : List Piece) :
    spelled? (.unit n :: pieces) =
      (spelled? pieces).map (Char.ofNat n :: ·) := by
  have hhigh : isHighSurrogate n = false := by
    simp only [isHighSurrogate, Bool.and_eq_false_iff, decide_eq_false_iff_not]
    omega
  have hlow : isLowSurrogate n = false := by
    simp only [isLowSurrogate, Bool.and_eq_false_iff, decide_eq_false_iff_not]
    omega
  cases pieces with
  | nil => simp [spelled?, hhigh, hlow]
  | cons piece rest =>
      cases piece with
      | char c => simp [spelled?, hhigh, hlow]
      | unit low =>
          simp only [spelled?, hhigh, hlow, Bool.false_eq_true, if_false]

/-- What is read first stands in front of the rest. -/
theorem bind_some_cons {α : Type} (first : α) (others : Option (List α)) :
    (others.bind fun rest => some (first :: rest)) =
      others.map (first :: ·) := by
  cases others <;> rfl

/-- The piece that is read for a written character. -/
theorem Escapes.exists_piece (hescapes : Escapes c text) :
    ∃ piece, (∀ rest,
      pieces? (text ++ rest) = (pieces? rest).map (piece :: ·)) ∧
      ∀ pieces, spelled? (piece :: pieces) =
        (spelled? pieces).map (c :: ·) := by
  cases hescapes with
  | @letter e hletter =>
      have hne : e ≠ 'u' := by
        rintro rfl
        cases hletter
      refine ⟨.char c, fun rest => ?_, fun pieces => rfl⟩
      simp [pieces?, hne, hletter, bind_some_cons]
  | code hcode hcontrol hhigh hlow =>
      refine ⟨.unit c.toNat, fun rest => ?_, fun pieces => ?_⟩
      · simp [pieces?, hcode, bind_some_cons]
      · rw [spelled?_unit (Nat.lt_trans hcontrol (by decide)), Char.ofNat_toNat]
  | self hquote hbackslash hcontrol =>
      refine ⟨.char c, fun rest => ?_, fun pieces => rfl⟩
      simp [pieces?, hbackslash, hcontrol, bind_some_cons]

/-- The closing quote is the first one behind the written characters. -/
theorem splitQuoted_flatMap (cs rest : List Char) :
    splitQuoted (cs.flatMap escaped ++ '"' :: rest) =
      some (cs.flatMap escaped, rest) := by
  induction cs with
  | nil => rfl
  | cons c cs ih =>
      rw [List.flatMap_cons, List.append_assoc, (escapes_escaped c).splitQuoted,
        ih]
      rfl

theorem exists_pieces (cs : List Char) :
    ∃ pieces, pieces? (cs.flatMap escaped) = some pieces ∧
      spelled? pieces = some cs := by
  induction cs with
  | nil => exact ⟨[], rfl, rfl⟩
  | cons c cs ih =>
      obtain ⟨pieces, hpieces, hspelled⟩ := ih
      obtain ⟨piece, hpiece, hspells⟩ := (escapes_escaped c).exists_piece
      refine ⟨piece :: pieces, ?_, ?_⟩
      · rw [List.flatMap_cons, hpiece, hpieces, Option.map_some]
      · rw [hspells, hspelled, Option.map_some]

theorem unquoted?_flatMap (s : String) :
    unquoted? (s.toList.flatMap escaped) = some s := by
  obtain ⟨pieces, hpieces, hspelled⟩ := exists_pieces s.toList
  simp [unquoted?, hpieces, hspelled]

@[simp] theorem ofChars?_nil : ofChars? [] = some [] := by
  rw [ofChars?]

theorem ofChars?_blank (hblank : isBlank c = true) (rest : List Char) :
    ofChars? (c :: rest) = ofChars? rest := by
  rw [ofChars?, if_pos hblank]

/-- Blanks are skipped. -/
theorem ofChars?_blanks {blanks : List Char}
    (hblanks : ∀ c ∈ blanks, isBlank c = true) (rest : List Char) :
    ofChars? (blanks ++ rest) = ofChars? rest := by
  induction blanks with
  | nil => rfl
  | cons c blanks ih =>
      rw [List.cons_append, ofChars?_blank (hblanks c List.mem_cons_self)]
      exact ih fun other hother => hblanks other (List.mem_cons_of_mem _ hother)

/-- A character that is a token on its own. -/
theorem ofChars?_punctuation {token : Token}
    (htoken : punctuation? c = some token) (rest : List Char) :
    ofChars? (c :: rest) = (ofChars? rest).map (token :: ·) := by
  have hother : isBlank c = false ∧ c ≠ '"' ∧ isWordChar c = false := by
    unfold punctuation? at htoken
    split at htoken
    case h_7 => cases htoken
    all_goals decide
  rw [ofChars?, if_neg (by simp [hother]), if_neg hother.2.1,
    if_neg (by simp [hother]), htoken]
  simp [bind_some_cons]

/-- A quoted string is one token. -/
theorem ofChars?_quoted (s : String) (rest : List Char) :
    ofChars? (quoted s ++ rest) = (ofChars? rest).map (.str s :: ·) := by
  have htext : quoted s ++ rest = '"' ::
      (s.toList.flatMap escaped ++ '"' :: rest) := by
    simp [quoted]
  rw [htext, ofChars?, if_neg (by decide), if_pos rfl]
  split
  next hnone =>
    rw [splitQuoted_flatMap] at hnone
    cases hnone
  next body after hsome =>
    rw [splitQuoted_flatMap] at hsome
    cases hsome
    simp [unquoted?_flatMap, bind_some_cons]

/-- A word ends in front of a character that does not belong to words. -/
theorem ofChars?_word {word : List Char} {token : Token}
    (hword : word? (c :: word) = some token)
    (hfirst : isBlank c = false ∧ c ≠ '"' ∧ isWordChar c = true)
    (hletters : ∀ c ∈ word, isWordChar c = true)
    (hrest : ∀ c ∈ rest.head?, isWordChar c = false) :
    ofChars? (c :: word ++ rest) = (ofChars? rest).map (token :: ·) := by
  have hnone : rest.takeWhile isWordChar = [] ∧
      rest.dropWhile isWordChar = rest := by
    cases rest with
    | nil => exact ⟨rfl, rfl⟩
    | cons next others =>
        have hnext := hrest next rfl
        simp [hnext]
  rw [List.cons_append, ofChars?, if_neg (by simp [hfirst]), if_neg hfirst.2.1,
    if_pos hfirst.2.2, List.takeWhile_append_of_pos hletters,
    List.dropWhile_append_of_pos hletters,
    hnone.1, hnone.2, List.append_nil, hword]
  simp [bind_some_cons]

/-- A text has these tokens, in front of whatever is no part of a word. -/
def Lexes (text : List Char) (tokens : List Token) : Prop :=
  ∀ rest, (∀ c ∈ rest.head?, isWordChar c = false) →
    ofChars? (text ++ rest) = (ofChars? rest).map (tokens ++ ·)

/-- A text has these tokens, whatever follows. -/
def LexesAlone (text : List Char) (tokens : List Token) : Prop :=
  ∀ rest, ofChars? (text ++ rest) = (ofChars? rest).map (tokens ++ ·)

variable {other : List Char} {tokens tokens' : List Token} {token : Token}

theorem LexesAlone.lexes (htext : LexesAlone text tokens) : Lexes text tokens :=
  fun rest _ => htext rest

theorem LexesAlone.append (htext : LexesAlone text tokens)
    (hother : LexesAlone other tokens') :
    LexesAlone (text ++ other) (tokens ++ tokens') := by
  intro rest
  rw [List.append_assoc, htext, hother, Option.map_map]
  congr 1
  funext rest
  exact (List.append_assoc _ _ _).symm

/-- A text in front of one that starts with no part of a word. -/
theorem Lexes.append (htext : Lexes text tokens)
    (hother : LexesAlone (c :: other) tokens') (hc : isWordChar c = false) :
    LexesAlone (text ++ c :: other) (tokens ++ tokens') := by
  intro rest
  have hhead : ∀ d ∈ (c :: other ++ rest).head?, isWordChar d = false := by
    intro d hd
    cases hd
    exact hc
  rw [List.append_assoc, htext _ hhead, hother, Option.map_map]
  congr 1
  funext rest
  exact (List.append_assoc _ _ _).symm

theorem LexesAlone.nil : LexesAlone [] [] := fun _ => Option.map_id'.symm

theorem LexesAlone.blanks (hblanks : ∀ c ∈ text, isBlank c = true) :
    LexesAlone text [] := by
  intro rest
  rw [ofChars?_blanks hblanks]
  exact Option.map_id'.symm

theorem LexesAlone.punctuation (htoken : punctuation? c = some token) :
    LexesAlone [c] [token] :=
  ofChars?_punctuation htoken

theorem LexesAlone.quoted (s : String) : LexesAlone (Tree.quoted s) [.str s] :=
  ofChars?_quoted s

end Token

end SchemaForms.Json
