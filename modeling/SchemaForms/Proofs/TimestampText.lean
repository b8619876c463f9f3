import SchemaForms.PrimitiveType
import Mathlib.Algebra.Group.Nat.Defs
import Mathlib.Data.List.Induction
import Mathlib.Data.List.TakeWhile
/-!
The texts that are timestamps: a grammar that prints the fields of a date, a
time of day and an offset, and the proof that the reader takes exactly the texts
of the grammar.
-/

namespace SchemaForms

namespace Digits

/-- A number in decimal at a fixed width, with zeros in front. -/
def padded : Nat → Nat → List Char
  | 0, _ => []
  | width + 1, n => padded width (n / 10) ++ [Nat.digitChar (n % 10)]

variable {width n : Nat} {cs rest : List Char}

theorem length_padded (width n : Nat) : (padded width n).length = width := by
  induction width generalizing n with
  | zero => rfl
  | succ width ih => rw [padded, List.length_append, ih, List.length_singleton]

theorem isDigit_of_mem_padded {c : Char} (hc : c ∈ padded width n) :
    c.isDigit = true := by
  induction width generalizing n with
  | zero => cases hc
  | succ width ih =>
      rw [padded, List.mem_append, List.mem_singleton] at hc
      cases hc with
      | inl hinit => exact ih hinit
      | inr hlast =>
          rw [hlast, Nat.isDigit_digitChar]
          exact decide_eq_true (Nat.mod_lt n (by decide))

theorem digitChar_of_isDigit {c : Char} (hc : c.isDigit = true) :
    c.toNat - '0'.toNat < 10 ∧ Nat.digitChar (c.toNat - '0'.toNat) = c := by
  rw [Char.isDigit, Bool.and_eq_true, decide_eq_true_eq, decide_eq_true_eq]
    at hc
  have hleast : 48 ≤ c.toNat := hc.1
  have hgreatest : c.toNat ≤ 57 := hc.2
  have hchar : ∀ digit < 10, Nat.digitChar digit = Char.ofNat (48 + digit) := by
    decide
  change c.toNat - 48 < 10 ∧ Nat.digitChar (c.toNat - 48) = c
  refine ⟨by omega, ?_⟩
  rw [hchar _ (by omega), Nat.add_sub_cancel' hleast, Char.ofNat_toNat]

theorem number_concat (digits : List Nat) (digit : Nat) :
    number (digits ++ [digit]) = 10 * number digits + digit := by
  unfold number
  rw [List.foldl_append]
  rfl

theorem ofChars?_eq_some_iff {digits : List Nat} :
    ofChars? cs = some digits ↔
      (cs ≠ [] ∧ ∀ c ∈ cs, c.isDigit = true) ∧
      cs.map (fun c => c.toNat - '0'.toNat) = digits := by
  have hrun : (cs.isEmpty || !cs.all Char.isDigit) = true ↔
      ¬ (cs ≠ [] ∧ ∀ c ∈ cs, c.isDigit = true) := by
    rw [Bool.or_eq_true, List.isEmpty_iff, Bool.not_eq_true',
      ← Bool.not_eq_true, List.all_eq_true, not_and_or, not_not]
  unfold ofChars?
  split
  next hbad =>
    refine iff_of_false (Option.some_ne_none digits).symm ?_
    exact fun hgood => hrun.mp hbad hgood.1
  next hgood =>
    rw [hrun, not_not] at hgood
    rw [Option.some.injEq, and_iff_right hgood]

/-- What is read off a text of digits is printed as that text. -/
theorem padded_number (hdigits : ∀ c ∈ cs, c.isDigit = true) :
    number (cs.map fun c => c.toNat - '0'.toNat) < 10 ^ cs.length ∧
      padded cs.length (number (cs.map fun c => c.toNat - '0'.toNat)) = cs := by
  induction cs using List.reverseRecOn with
  | nil => exact ⟨Nat.one_pos, rfl⟩
  | append_singleton cs c ih =>
      obtain ⟨hlt, hpadded⟩ := ih fun c' hc' =>
        hdigits c' (List.mem_append_left _ hc')
      obtain ⟨hdigit, hchar⟩ := digitChar_of_isDigit (hdigits c (by simp))
      rw [List.map_append, List.map_singleton, number_concat,
        List.length_append, List.length_singleton, Nat.pow_succ, padded,
        Nat.mul_add_div (by decide), Nat.div_eq_of_lt hdigit, Nat.add_zero,
        hpadded,
        Nat.mul_add_mod, Nat.mod_eq_of_lt hdigit, hchar]
      exact ⟨by omega, rfl⟩

/-- What is printed is read. -/
theorem number_padded (hn : n < 10 ^ width) :
    number ((padded width n).map fun c => c.toNat - '0'.toNat) = n := by
  induction width generalizing n with
  | zero => exact (Nat.lt_one_iff.mp hn).symm
  | succ width ih =>
      have hlast : n % 10 < 10 := Nat.mod_lt n (by decide)
      rw [padded, List.map_append, List.map_singleton, number_concat,
        ih (by omega), Nat.toNat_digitChar_of_lt_ten hlast]
      change 10 * (n / 10) + (48 + n % 10 - 48) = n
      omega

theorem value?_eq_some_iff :
    value? cs = some n ↔ cs ≠ [] ∧ n < 10 ^ cs.length ∧
      cs = padded cs.length n := by
  unfold value?
  rw [Option.map_eq_some_iff]
  constructor
  · rintro ⟨digits, hdigits, rfl⟩
    obtain ⟨⟨hne, hdigit⟩, rfl⟩ := ofChars?_eq_some_iff.mp hdigits
    obtain ⟨hlt, hpadded⟩ := padded_number hdigit
    exact ⟨hne, hlt, hpadded.symm⟩
  · rintro ⟨hne, hlt, hpadded⟩
    refine ⟨_, ofChars?_eq_some_iff.mpr ⟨⟨hne, ?_⟩, rfl⟩, ?_⟩
    · intro c hc
      rw [hpadded] at hc
      exact isDigit_of_mem_padded hc
    · rw [hpadded]
      exact number_padded hlt

/-- A field of digits is read off the text that it is printed as. -/
theorem take?_eq_some_iff (hwidth : 0 < width) :
    take? width cs = some (n, rest) ↔ n < 10 ^ width ∧
      cs = padded width n ++ rest := by
  unfold take?
  constructor
  · intro htake
    split at htake
    next hlength =>
      obtain ⟨n', hvalue, hpair⟩ := Option.map_eq_some_iff.mp htake
      cases hpair
      obtain ⟨-, hlt, hpadded⟩ := value?_eq_some_iff.mp hvalue
      rw [hlength] at hlt hpadded
      exact ⟨hlt, by rw [← hpadded, List.take_append_drop]⟩
    next => cases htake
  · rintro ⟨hlt, rfl⟩
    have hlength := length_padded width n
    rw [List.take_left' hlength, List.drop_left' hlength, if_pos hlength]
    have hvalue : value? (padded width n) = some n := by
      refine value?_eq_some_iff.mpr ⟨?_, ?_, ?_⟩
      · apply List.ne_nil_of_length_pos
        rw [hlength]
        exact hwidth
      · rw [hlength]
        exact hlt
      · rw [hlength]
    rw [hvalue, Option.map_some]

end Digits

namespace Timestamp

open Digits

/-- A date that exists in the proleptic Gregorian calendar. -/
structure DateExists (year month day : Nat) : Prop where
  hmonth : 1 ≤ month ∧ month ≤ 12
  hday : 1 ≤ day ∧ day ≤ 31
  thirty : month = 4 ∨ month = 6 ∨ month = 9 ∨ month = 11 → day ≤ 30
  february : month = 2 → day ≤ 29
  leap : month = 2 → day = 29 → 4 ∣ year ∧ (100 ∣ year → 400 ∣ year)

/-- A date, YYYY-MM-DD. -/
inductive IsDateText : List Char → Prop
  | intro {year month day : Nat} (hyear : year ≤ 9999)
      (hdate : DateExists year month day) :
      IsDateText (padded 4 year ++ '-' ::
        (padded 2 month ++ '-' :: padded 2 day))

/-- A time of day, HH:MM:SS.  Any minute may have a leap second. -/
inductive IsTimeText : List Char → Prop
  | intro {hour minute second : Nat} (hhour : hour ≤ 23) (hminute : minute ≤ 59)
      (hsecond : second ≤ 60) :
      IsTimeText (padded 2 hour ++ ':' ::
        (padded 2 minute ++ ':' :: padded 2 second))

/-- The decimals of a second: none, or a point and at least one digit. -/
inductive IsDecimalsText : List Char → Prop
  | none : IsDecimalsText []
  | some {digits : List Char} (hne : digits ≠ [])
      (hdigits : ∀ c ∈ digits, c.isDigit = true) :
      IsDecimalsText ('.' :: digits)

/-- A distance from universal time. -/
inductive IsOffsetText : List Char → Prop
  | zulu {letter : Char} (hletter : letter ∈ ['Z', 'z']) : IsOffsetText [letter]
  | signed {sign : Char} {hour minute : Nat}
      (hsign : sign ∈ ['+', '-', '\u2212']) (hhour : hour ≤ 23)
      (hminute : minute ≤ 59) :
      IsOffsetText (sign :: (padded 2 hour ++ ':' :: padded 2 minute))

/-- A date and a time of day with its offset; one of some marks stands between
them. -/
inductive IsTimestamp (marks : List Char) : List Char → Prop
  | intro {date time decimals offset : List Char} {mark : Char}
      (hdate : IsDateText date) (hmark : mark ∈ marks) (htime : IsTimeText time)
      (hdecimals : IsDecimalsText decimals) (hoffset : IsOffsetText offset) :
      IsTimestamp marks (date ++ mark :: (time ++ (decimals ++ offset)))

variable {year month day hour minute second : Nat} {cs rest offset : List Char}

theorem isLeapYear_iff : isLeapYear year = true ↔ 4 ∣ year ∧
    (100 ∣ year → 400 ∣ year) := by
  simp only [isLeapYear, Bool.and_eq_true, Bool.or_eq_true, beq_iff_eq,
    bne_iff_ne]
  omega

theorem isDate_iff : isDate year month day = true ↔
    DateExists year month day := by
  rw [isDate, Bool.and_eq_true, decide_eq_true_eq, decide_eq_true_eq]
  constructor
  · rintro ⟨hfirst, hlast⟩
    unfold daysInMonth at hlast
    split at hlast
    case h_12 =>
      split at hlast
      next hleap => exact ⟨by omega, by omega, by omega, by omega, fun _ _ =>
        isLeapYear_iff.mp hleap⟩
      next => exact ⟨by omega, by omega, by omega, by omega, by omega⟩
    all_goals exact ⟨by omega, by omega, by omega, by omega, by omega⟩
  · rintro ⟨hmonth, hday, hthirty, hfebruary, hleap⟩
    refine ⟨hday.1, ?_⟩
    unfold daysInMonth
    split
    case h_12 =>
      split
      next => exact hfebruary rfl
      next hcommon =>
        have hne : day ≠ 29 :=
          fun hlast => hcommon (isLeapYear_iff.mpr (hleap rfl hlast))
        have := hfebruary rfl
        omega
    case h_13 => grind
    all_goals omega

theorem mark?_eq_some_iff {p : Char → Bool} :
    mark? p cs = some rest ↔ ∃ c, p c = true ∧ cs = c :: rest := by
  cases cs with
  | nil =>
      refine iff_of_false (by simp [mark?]) ?_
      rintro ⟨c, -, hnil⟩
      cases hnil
  | cons c cs =>
      rw [mark?]
      constructor
      · intro hmark
        split at hmark
        next hp =>
          cases hmark
          exact ⟨c, hp, rfl⟩
        next => cases hmark
      · rintro ⟨c', hp, hcons⟩
        cases hcons
        exact if_pos hp

theorem mark?_beq_eq_some_iff {c : Char} : mark? (· == c) cs = some rest ↔
    cs = c :: rest := by
  rw [mark?_eq_some_iff]
  simp only [beq_iff_eq, exists_eq_left]

theorem take?_two_eq_some_iff : take? 2 cs = some (n, rest) ↔ n ≤ 99 ∧
    cs = padded 2 n ++ rest := by
  rw [take?_eq_some_iff (by decide)]
  exact and_congr_left fun _ => Nat.lt_succ_iff

/-- The reader of a date takes a text of the grammar off the front. -/
theorem date?_eq_some_iff :
    date? cs = some rest ↔ ∃ date, IsDateText date ∧ cs = date ++ rest := by
  have hyear {year : Nat} {cs rest : List Char} :
      take? 4 cs = some (year, rest) ↔ year ≤ 9999 ∧
        cs = padded 4 year ++ rest := by
    rw [take?_eq_some_iff (by decide)]
    exact and_congr_left fun _ => Nat.lt_succ_iff
  unfold date?
  simp only [Option.bind_eq_bind, Option.bind_eq_some_iff, Prod.exists, hyear,
    take?_two_eq_some_iff, mark?_beq_eq_some_iff, isDate_iff,
    Option.ite_none_right_eq_some, Option.some.injEq]
  constructor
  · rintro ⟨year, _, ⟨hle, rfl⟩, _, rfl, month, _, ⟨-, rfl⟩, _, rfl, day, _,
      ⟨-, rfl⟩, hdate, rfl⟩
    exact ⟨_, .intro hle hdate, by simp⟩
  · rintro ⟨_, @⟨year, month, day, hle, hdate⟩, rfl⟩
    have hmonth : month ≤ 99 := hdate.hmonth.2.trans (by decide)
    have hday : day ≤ 99 := hdate.hday.2.trans (by decide)
    simp only [List.append_assoc, List.cons_append]
    exact ⟨year, _, ⟨hle, rfl⟩, _, rfl, month, _, ⟨hmonth, rfl⟩, _, rfl, day, _,
      ⟨hday, rfl⟩, hdate, rfl⟩

theorem timeOfDay?_eq_some_iff :
    timeOfDay? cs = some rest ↔ ∃ time, IsTimeText time ∧
      cs = time ++ rest := by
  unfold timeOfDay?
  simp only [Option.bind_eq_bind, Option.bind_eq_some_iff, Prod.exists,
    take?_two_eq_some_iff, mark?_beq_eq_some_iff, isTimeOfDay, Bool.and_eq_true,
    decide_eq_true_eq, Option.ite_none_right_eq_some,
    Option.some.injEq]
  constructor
  · rintro ⟨hour, _, ⟨-, rfl⟩, _, rfl, minute, _, ⟨-, rfl⟩, _, rfl,
      second, _, ⟨-, rfl⟩, ⟨⟨hhour, hminute⟩, hsecond⟩, rfl⟩
    exact ⟨_, .intro (Nat.le_of_lt_succ hhour) (Nat.le_of_lt_succ hminute)
      hsecond, by simp⟩
  · rintro ⟨_, @⟨hour, minute, second, hhour, hminute, hsecond⟩, rfl⟩
    simp only [List.append_assoc, List.cons_append]
    exact ⟨hour, _, ⟨by omega, rfl⟩, _, rfl, minute, _, ⟨by omega, rfl⟩, _,
      rfl, second, _, ⟨by omega, rfl⟩, ⟨⟨by omega, by omega⟩, hsecond⟩, rfl⟩

theorem isOffsetSign_iff {c : Char} : isOffsetSign c = true ↔
    c ∈ ['+', '-', '\u2212'] := by
  simp only [isOffsetSign, Bool.or_eq_true, beq_iff_eq, List.mem_cons,
    List.not_mem_nil, or_false, or_assoc]

theorem offset?_cons_of_sign {sign : Char} (hsign : isOffsetSign sign = true) :
    offset? isOffsetSign (sign :: cs) = some rest ↔
      ∃ hour minute, hour ≤ 23 ∧ minute ≤ 59 ∧
        cs = padded 2 hour ++ ':' :: (padded 2 minute ++ rest) := by
  have hletter : ¬ (sign == 'Z' || sign == 'z') = true := by
    rw [isOffsetSign_iff] at hsign
    simp only [List.mem_cons, List.not_mem_nil, or_false] at hsign
    rcases hsign with rfl | rfl | rfl <;> decide
  rw [offset?, if_neg hletter, if_pos hsign]
  simp only [Option.bind_eq_bind, Option.bind_eq_some_iff, Prod.exists,
    take?_two_eq_some_iff, mark?_beq_eq_some_iff, isUtcOffset, Bool.and_eq_true,
    decide_eq_true_eq, Option.ite_none_right_eq_some,
    Option.some.injEq]
  constructor
  · rintro ⟨hour, _, ⟨-, rfl⟩, _, rfl, minute, _, ⟨-, rfl⟩,
      ⟨hhour, hminute⟩, rfl⟩
    exact ⟨hour, minute, Nat.le_of_lt_succ hhour, Nat.le_of_lt_succ hminute,
      rfl⟩
  · rintro ⟨hour, minute, hhour, hminute, rfl⟩
    exact ⟨hour, _, ⟨by omega, rfl⟩, _, rfl, minute, _, ⟨by omega, rfl⟩,
      ⟨by omega, by omega⟩, rfl⟩

theorem offset?_eq_some_iff :
    offset? isOffsetSign cs = some rest ↔ ∃ offset, IsOffsetText offset ∧
      cs = offset ++ rest := by
  constructor
  · intro hread
    cases cs with
    | nil => cases hread
    | cons c cs =>
        by_cases hsign : isOffsetSign c = true
        · obtain ⟨hour, minute, hhour, hminute, rfl⟩ :=
            (offset?_cons_of_sign hsign).mp hread
          exact ⟨_, .signed (isOffsetSign_iff.mp hsign) hhour hminute, by simp⟩
        · rw [offset?, if_neg hsign] at hread
          split at hread
          next hletter =>
            cases hread
            exact ⟨[c], .zulu (by simpa using hletter), rfl⟩
          next => cases hread
  · rintro ⟨_, hoffset, rfl⟩
    cases hoffset with
    | zulu hletter =>
        rw [List.singleton_append, offset?, if_pos (by simpa using hletter)]
    | @signed sign hour minute hsign hhour hminute =>
        rw [List.cons_append, offset?_cons_of_sign (isOffsetSign_iff.mpr hsign)]
        exact ⟨hour, minute, hhour, hminute, by simp⟩

theorem decimals?_of_some (hread : decimals? cs = some rest) :
    ∃ decimals, IsDecimalsText decimals ∧ cs = decimals ++ rest := by
  unfold decimals? at hread
  split at hread
  next cs =>
    split at hread
    next => cases hread
    next hne =>
      cases hread
      refine ⟨_, .some (mt List.isEmpty_iff.mpr hne) fun c hc =>
        List.mem_takeWhile_imp hc, ?_⟩
      rw [List.cons_append, List.takeWhile_append_dropWhile]
  next =>
    cases hread
    exact ⟨[], .none, rfl⟩

theorem IsOffsetText.exists_head (hoffset : IsOffsetText offset) :
    ∃ c cs, offset = c :: cs ∧ c.isDigit = false ∧ c ≠ '.' := by
  have hhead : ∀ c ∈ ['Z', 'z', '+', '-', '\u2212'], c.isDigit = false ∧
      c ≠ '.' := by
    simp [Char.isDigit]
  cases hoffset with
  | zulu hletter => exact ⟨_, _, rfl, hhead _ (List.mem_append_left _ hletter)⟩
  | signed hsign =>
      exact ⟨_, _, rfl, hhead _ (List.mem_append_right ['Z', 'z'] hsign)⟩

/-- Decimals are read to their end, since no offset begins with a digit. -/
theorem decimals?_append {decimals : List Char}
    (hdecimals : IsDecimalsText decimals) (hoffset : IsOffsetText offset) :
    decimals? (decimals ++ offset) = some offset := by
  obtain ⟨c, cs, rfl, hdigit, hpoint⟩ := hoffset.exists_head
  cases hdecimals with
  | none =>
      unfold decimals?
      split
      next heq =>
        cases heq
        exact absurd rfl hpoint
      next => rfl
  | @some digits hne hdigits =>
      have hhead : ¬ c.isDigit = true := Bool.eq_false_iff.mp hdigit
      rw [List.cons_append, decimals?, List.takeWhile_append_of_pos hdigits,
        List.dropWhile_append_of_pos hdigits, List.takeWhile_cons_of_neg hhead,
        List.dropWhile_cons_of_neg hhead, List.append_nil,
        if_neg (mt List.isEmpty_iff.mp hne)]

/-- The reader takes the texts of the grammar, to their end. -/
theorem rest?_eq_some_nil_iff : rest? cs = some [] ↔
    IsTimestamp ['T', 't'] cs := by
  have hmark {c : Char} : (c == 'T' || c == 't') = true ↔ c ∈ ['T', 't'] := by
    simp only [Bool.or_eq_true, beq_iff_eq, List.mem_cons, List.not_mem_nil,
      or_false]
  unfold rest?
  simp only [Option.bind_eq_bind, Option.bind_eq_some_iff, date?_eq_some_iff,
    timeOfDay?_eq_some_iff, offset?_eq_some_iff, mark?_eq_some_iff, hmark]
  constructor
  · rintro ⟨_, ⟨date, hdate, rfl⟩, _, ⟨mark, hmark, rfl⟩, _, ⟨time, htime, rfl⟩,
      _, hread, offset, hoffset, rfl⟩
    obtain ⟨decimals, hdecimals, rfl⟩ := decimals?_of_some hread
    rw [List.append_nil]
    exact .intro hdate hmark htime hdecimals hoffset
  · rintro ⟨hdate, hmark, htime, hdecimals, hoffset⟩
    exact ⟨_, ⟨_, hdate, rfl⟩, _, ⟨_, hmark, rfl⟩, _, ⟨_, htime, rfl⟩, _,
      decimals?_append hdecimals hoffset, _, hoffset, (List.append_nil _).symm⟩

def byteAt? (text : String) (i : Nat) : Option UInt8 :=
  text.toUTF8.data[i]?

theorem byteAt?_eq (text : String) (i : Nat) :
    byteAt? text i = (text.toList.flatMap String.utf8EncodeChar)[i]? := by
  unfold byteAt?
  rw [String.toUTF8_eq_toByteArray, ← String.utf8Encode_toList, List.utf8Encode,
    List.data_toByteArray, List.getElem?_toArray]

theorem length_flatMap_utf8EncodeChar (hsize : ∀ c ∈ cs, c.utf8Size = 1) :
    (cs.flatMap String.utf8EncodeChar).length = cs.length := by
  induction cs with
  | nil => rfl
  | cons c cs ih =>
      rw [List.flatMap_cons, List.length_append, String.length_utf8EncodeChar,
        hsize c List.mem_cons_self, ih fun c' hc' =>
          hsize c' (List.mem_cons_of_mem c hc'), List.length_cons, Nat.add_comm]

theorem IsDateText.length_eq {date : List Char} (hdate : IsDateText date) :
    date.length = 10 := by
  cases hdate
  simp [length_padded]

theorem utf8Size_of_isDigit {c : Char} (hc : c.isDigit = true) :
    c.utf8Size = 1 := by
  rw [Char.isDigit, Bool.and_eq_true, decide_eq_true_eq, decide_eq_true_eq]
    at hc
  exact Char.utf8Size_eq_one_iff.mpr
    (UInt32.le_trans hc.2 (by decide : (57 : UInt32) ≤ 127))

theorem IsDateText.utf8Size_eq {date : List Char} (hdate : IsDateText date)
    {c : Char} (hc : c ∈ date) :
    c.utf8Size = 1 := by
  have hcases : c.isDigit = true ∨ c = '-' := by
    cases hdate
    simp only [List.mem_append, List.mem_cons] at hc
    rcases hc with hyear | rfl | hmonth | rfl | hday
    · exact .inl (isDigit_of_mem_padded hyear)
    · exact .inr rfl
    · exact .inl (isDigit_of_mem_padded hmonth)
    · exact .inr rfl
    · exact .inl (isDigit_of_mem_padded hday)
  rcases hcases with hdigit | rfl
  · exact utf8Size_of_isDigit hdigit
  · rfl

/-- The tenth byte is the mark: in front of it stand ten characters of one byte
each. -/
theorem byteAt?_ten {text : String} {date : List Char} {mark : Char}
    (hdate : IsDateText date) (hmark : mark.utf8Size = 1)
    (htext : text.toList = date ++ mark :: rest) :
    byteAt? text 10 = some mark.val.toUInt8 := by
  have hlength : (date.flatMap String.utf8EncodeChar).length = 10 := by
    rw [length_flatMap_utf8EncodeChar fun c hc => hdate.utf8Size_eq hc,
      hdate.length_eq]
  rw [byteAt?_eq, htext, List.flatMap_append, List.flatMap_cons,
    String.utf8EncodeChar_eq_singleton hmark,
    List.getElem?_append_right hlength.le, hlength]
  rfl

section

variable {marks : List Char}

theorem IsTimestamp.mono {wider : List Char} (htimestamp : IsTimestamp marks cs)
    (hwider : ∀ mark ∈ marks, mark ∈ wider) : IsTimestamp wider cs := by
  cases htimestamp with
  | intro hdate hmark htime hdecimals hoffset =>
      exact .intro hdate (hwider _ hmark) htime hdecimals hoffset

theorem IsTimestamp.utf8Size_eq (htimestamp : IsTimestamp marks cs) {c : Char}
    (hc : c ∈ cs.take 10) :
    c.utf8Size = 1 := by
  cases htimestamp with
  | intro hdate =>
      rw [List.take_left' hdate.length_eq] at hc
      exact hdate.utf8Size_eq hc

variable {text : String}

theorem IsTimestamp.byteAt?_mem (htimestamp : IsTimestamp marks text.toList)
    (hmarks : ∀ mark ∈ marks, mark.utf8Size = 1) :
    byteAt? text 10 ∈ marks.map fun mark => some mark.val.toUInt8 := by
  generalize hcs : text.toList = cs at htimestamp
  cases htimestamp with
  | intro hdate hmark =>
      rw [byteAt?_ten hdate (hmarks _ hmark) hcs]
      exact List.mem_map_of_mem hmark

/-- A letter as the eleventh byte is the mark of the timestamp. -/
theorem IsTimestamp.of_byteAt?
    (htimestamp : IsTimestamp ['T', 't', ' '] text.toList)
    (hbyte : byteAt? text 10 ∈ [some 'T'.val.toUInt8, some 't'.val.toUInt8]) :
    IsTimestamp ['T', 't'] text.toList := by
  generalize hcs : text.toList = cs at htimestamp ⊢
  cases htimestamp with
  | @intro date time decimals offset mark hdate hmark htime hdecimals hoffset =>
      have hsize : ∀ mark ∈ ['T', 't', ' '], mark.utf8Size = 1 := by
        simp [Char.utf8Size]
      rw [byteAt?_ten hdate (hsize mark hmark) hcs] at hbyte
      have hletter : mark ∈ ['T', 't'] ∨ mark = ' ' := by
        simpa [or_assoc] using hmark
      rcases hletter with hletter | rfl
      · exact .intro hdate hletter htime hdecimals hoffset
      · exact absurd hbyte (by decide)

end

end Timestamp

namespace PrimitiveType

open Timestamp

theorem accepts_timestamp_iff (text : String) :
    timestamp.accepts (.str text) = true ↔
      IsTimestamp ['T', 't'] text.toList := by
  rw [← rest?_eq_some_nil_iff]
  simp [PrimitiveType.accepts, Timestamp.accepts]

/-- The values of the timestamp type are the texts of the grammar.  A reader
that lets a space stand for the `T` finds the same texts if it asks for the
letter as the eleventh byte. -/
theorem timestamp_accepts_iff (value : Json) :
    (timestamp.accepts value = true ↔ ∃ text, value = .str text ∧
      IsTimestamp ['T', 't'] text.toList) ∧
      ∀ text : String,
        (timestamp.accepts (.str text) = true ↔
          byteAt? text 10 ∈ [some 'T'.val.toUInt8, some 't'.val.toUInt8] ∧
            IsTimestamp ['T', 't', ' '] text.toList) ∧
        (timestamp.accepts (.str text) = true → ∀ c ∈ text.toList.take 10,
          c.utf8Size = 1) := by
  refine ⟨?_, fun text => ⟨?_, ?_⟩⟩
  · cases value with
    | str text => simp [accepts_timestamp_iff]
    | num n => simp [accepts, integerRange?]
    | _ => simp [accepts]
  · rw [accepts_timestamp_iff]
    constructor
    · intro htimestamp
      exact ⟨htimestamp.byteAt?_mem (by simp [Char.utf8Size]),
        htimestamp.mono (by simp)⟩
    · rintro ⟨hbyte, htimestamp⟩
      exact htimestamp.of_byteAt? hbyte
  · rw [accepts_timestamp_iff]
    exact fun htimestamp c hc => htimestamp.utf8Size_eq hc

end PrimitiveType

end SchemaForms
