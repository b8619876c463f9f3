import SchemaForms.Proofs.Loosening
import SchemaForms.Proofs.Rounding
import Mathlib.Data.Rat.Defs
/-!
An integer type asks a number for its float, which is rounded.  Its answer is
the one for the exact number: rounding keeps the order, and the bounds of each
range and the integers next to them are floats.
-/

namespace SchemaForms

namespace Binary64

variable {x : Binary64} {k : Int}

theorem one_pos : 0 < one := by
  rw [one_eq]
  generalize 1074 = exponent
  exact Nat.two_pow_pos exponent

theorem toInt?_eq_some_iff : x.toInt? = some k ↔ x.units = k * one := by
  have hone : (one : Int) ≠ 0 := Int.natCast_ne_zero.mpr one_pos.ne'
  unfold toInt?
  split
  next hdvd =>
    rw [Option.some.injEq]
    exact Int.ediv_eq_iff_eq_mul_left hone (Int.dvd_of_emod_eq_zero hdvd)
  next hrest =>
    refine iff_of_false (Option.some_ne_none k).symm ?_
    intro hunits
    rw [hunits, Int.mul_emod_left] at hrest
    exact hrest rfl

theorem toRat_eq_intCast_iff : x.toRat = k ↔ x.units = k * one := by
  have hone : (one : Int) ≠ 0 := Int.natCast_ne_zero.mpr one_pos.ne'
  unfold toRat
  rw [Rat.mkRat_eq_divInt, Rat.intCast_eq_divInt,
    Rat.divInt_eq_divInt_iff hone Int.one_ne_zero, Int.mul_one]

end Binary64

namespace PrimitiveType

open Binary64

variable {type : PrimitiveType} {least greatest : Int}

/-- The bounds of the ranges are far from the integers that are no floats. -/
theorem integerRange?_bounds
    (hrange : type.integerRange? = some (least, greatest)) :
    -2 ^ 32 < least ∧ greatest < 2 ^ 32 := by
  cases type <;>
    simp only [integerRange?, Option.some.injEq, Prod.mk.injEq, reduceCtorEq]
    at hrange <;>
    omega

theorem inRange_iff {n : Number} :
    inRange (least, greatest) n = true ↔
      ∃ x k, n.toBinary64? = some x ∧ x.toInt? = some k ∧ least ≤ k ∧
        k ≤ greatest := by
  unfold inRange
  split
  next k hk =>
    obtain ⟨x, hx, hxk⟩ := Option.bind_eq_some_iff.mp hk
    simp only [Bool.and_eq_true, decide_eq_true_eq]
    constructor
    · exact fun hbounds => ⟨x, k, hx, hxk, hbounds⟩
    · rintro ⟨x', k', hx', hxk', hbounds⟩
      cases hx.symm.trans hx'
      cases hxk.symm.trans hxk'
      exact hbounds
  next hnone =>
    refine iff_of_false Bool.false_ne_true ?_
    rintro ⟨x, k, hx, hxk, -⟩
    rw [hx, Option.bind_some, hxk] at hnone
    cases hnone

/-- Rounding brings no integer into the range or out of it. -/
theorem inRange_int_iff (hleast : -2 ^ 32 < least)
    (hgreatest : greatest < 2 ^ 32) {n : Int} :
    inRange (least, greatest) (.int n) = true ↔ least ≤ n ∧ n ≤ greatest := by
  have hone : (0 : Int) < one := Int.natCast_pos.mpr Binary64.one_pos
  rw [inRange_iff]
  constructor
  · rintro ⟨x, k, hx, hk, hbounds⟩
    have hrounds := rounds_of_ofInt? hx
    have hbelow : n ≤ least - 1 → k ≤ least - 1 := by
      intro hn
      have hunits := hrounds.units_le (by omega) hn
      rw [toInt?_eq_some_iff.mp hk] at hunits
      exact Int.le_of_mul_le_mul_right hunits hone
    have habove : greatest + 1 ≤ n → greatest + 1 ≤ k := by
      intro hn
      have hunits := hrounds.le_units (by omega) hn
      rw [toInt?_eq_some_iff.mp hk] at hunits
      exact Int.le_of_mul_le_mul_right hunits hone
    omega
  · intro hbounds
    obtain ⟨x, hx⟩ := exists_ofInt? (n := n) (k := 32) (by decide) (by omega)
    have hunits := (rounds_of_ofInt? hx).units_eq (by omega)
    exact ⟨x, n, hx, toInt?_eq_some_iff.mpr hunits, hbounds⟩

/-- A float is read as the exact rational number that it is. -/
theorem inRange_float_iff {x : Binary64} :
    inRange (least, greatest) (.float x) = true ↔
      (∃ k : Int, x.toRat = k) ∧ least ≤ x.toRat ∧ x.toRat ≤ greatest := by
  rw [inRange_iff]
  constructor
  · rintro ⟨x', k, hx, hk, hleast, hgreatest⟩
    cases hx
    have hrat : x.toRat = k :=
      toRat_eq_intCast_iff.mpr (toInt?_eq_some_iff.mp hk)
    rw [hrat]
    exact ⟨⟨k, rfl⟩, Rat.intCast_le_intCast.mpr hleast,
      Rat.intCast_le_intCast.mpr hgreatest⟩
  · rintro ⟨⟨k, hrat⟩, hleast, hgreatest⟩
    rw [hrat] at hleast hgreatest
    exact ⟨x, k, rfl, toInt?_eq_some_iff.mpr (toRat_eq_intCast_iff.mp hrat),
      Rat.intCast_le_intCast.mp hleast, Rat.intCast_le_intCast.mp hgreatest⟩

/-- An integer type judges a number by its exact value.  An integer of a word
comes to it as the nearest float, or as the even one of two. -/
theorem accepts_iff_exact
    (hrange : type.integerRange? = some (least, greatest)) :
    (∀ n, Numeral.fitsWord n = true → ∀ x, (Number.int n).toBinary64? = some x ↔
      Rounds n x) ∧
      (∀ n, type.accepts (.num (.int n)) = true ↔ least ≤ n ∧ n ≤ greatest) ∧
      (∀ x : Binary64, type.accepts (.num (.float x)) = true ↔
        (∃ k : Int, x.toRat = k) ∧ least ≤ x.toRat ∧ x.toRat ≤ greatest) ∧
      ∀ value, type.accepts value = true → ∃ n, value = .num n := by
  obtain ⟨hleast, hgreatest⟩ := integerRange?_bounds hrange
  refine ⟨?_, ?_, ?_, ?_⟩
  · intro n hword x
    simp only [Numeral.fitsWord, Bool.and_eq_true, decide_eq_true_eq] at hword
    exact ofInt?_eq_some_iff_rounds (k := 64) (by decide) (by omega)
  · intro n
    rw [accepts_num_of_range hrange]
    exact inRange_int_iff hleast hgreatest
  · intro x
    rw [accepts_num_of_range hrange]
    exact inRange_float_iff
  · intro value
    exact exists_num_of_isNumeric (.inl (by simp [hrange]))

/-- The greatest unsigned integer of 32 bits and the next one, the integer that
2^53 + 1 is rounded to, and minus zero. -/
theorem uint32_accepts_exact :
    uint32.integerRange? = some (0, 4294967295) ∧
      uint32.accepts (.num (.int 4294967295)) = true ∧
      ¬ uint32.accepts (.num (.int 4294967296)) = true ∧
      Rounds 9007199254740993 ⟨9007199254740992 * Binary64.one⟩ ∧
      Number.ofChars? "-0.0".toList = some (.float ⟨0⟩) ∧
      uint32.accepts (.num (.float ⟨0⟩)) = true ∧
      uint32.accepts (.str "1") ≠ true := by
  have hrange : uint32.integerRange? = some (0, 4294967295) := rfl
  obtain ⟨hround, hint, hfloat, hnumber⟩ := accepts_iff_exact hrange
  refine ⟨hrange, (hint _).mpr (by decide),
    fun haccepts => absurd ((hint _).mp haccepts) (by decide), ?_,
    by decide +kernel, (hfloat _).mpr ?_, ?_⟩
  · exact (hround 9007199254740993 (by decide) _).mp (by decide +kernel)
  · have hzero : Binary64.toRat ⟨0⟩ = ((0 : Int) : Rat) := Rat.zero_mkRat _
    rw [hzero]
    exact ⟨⟨0, rfl⟩, by decide, by decide⟩
  · intro haccepts
    obtain ⟨n, hn⟩ := hnumber _ haccepts
    cases hn

end PrimitiveType

end SchemaForms
