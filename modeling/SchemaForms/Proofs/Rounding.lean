import SchemaForms.Binary64
import Mathlib.Data.Nat.Dist
import Mathlib.Tactic.Ring
import Mathlib.Tactic.LinearCombination
/-!
Rounding an integer to a 64-bit float gives the nearest float, and the even one
of two that are as near.  Both facts are shown for the quotient first, then for
the significand and for the float.
-/

namespace SchemaForms.Binary64

variable {num den k significand exponent : Nat}

/-- A multiple of `den` is at most `q` times `den`, or at least one more. -/
theorem mul_le_or_add_le (k q den : Nat) : k * den ≤ q * den ∨
    q * den + den ≤ k * den := by
  rcases Nat.lt_or_ge q k with hlt | hle
  · right
    rw [← Nat.succ_mul]
    exact Nat.mul_le_mul_right den hlt
  · exact .inl (Nat.mul_le_mul_right den hle)

/-- Rounding goes to the multiple below or to the one above, whichever is not
farther. -/
theorem roundQuotient_cases (num den : Nat) :
    roundQuotient num den = num / den ∧ 2 * (num % den) ≤ den ∨
      roundQuotient num den = num / den + 1 ∧ den ≤ 2 * (num % den) := by
  unfold roundQuotient
  dsimp only
  split
  · exact .inl ⟨rfl, by omega⟩
  · exact .inr ⟨rfl, by omega⟩

theorem even_roundQuotient_of_half (hhalf : 2 * (num % den) = den) :
    roundQuotient num den % 2 = 0 := by
  unfold roundQuotient
  dsimp only
  split <;> omega

/-- No multiple is nearer than the one to which a quotient is rounded. -/
theorem dist_roundQuotient_le (num : Nat) (hden : 0 < den) (k : Nat) :
    Nat.dist num (roundQuotient num den * den) ≤ Nat.dist num (k * den) := by
  have hdiv : num / den * den + num % den = num := Nat.div_add_mod' num den
  have hrest : num % den < den := Nat.mod_lt num hden
  have hside := mul_le_or_add_le k (num / den) den
  unfold Nat.dist
  rcases roundQuotient_cases num den with ⟨hround, hhalf⟩ | ⟨hround, hhalf⟩
  · rw [hround]
    omega
  · rw [hround, Nat.succ_mul]
    omega

/-- Another multiple that is as near is next to the chosen one, which is even
then. -/
theorem even_roundQuotient_of_tie (hden : 0 < den)
    (hne : k ≠ roundQuotient num den)
    (htie : Nat.dist num (roundQuotient num den * den) =
      Nat.dist num (k * den)) :
    roundQuotient num den % 2 = 0 ∧ Nat.dist (roundQuotient num den) k = 1 := by
  have hdiv : num / den * den + num % den = num := Nat.div_add_mod' num den
  have hrest : num % den < den := Nat.mod_lt num hden
  have hbelow : k < num / den → k * den + den ≤ num / den * den := by
    intro hlt
    rw [← Nat.succ_mul]
    exact Nat.mul_le_mul_right den hlt
  have hnext : k = num / den + 1 → k * den = num / den * den + den := by
    rintro rfl
    exact Nat.succ_mul _ _
  have habove : num / den + 1 < k → num / den * den + den + den ≤ k * den := by
    intro hlt
    rw [← Nat.succ_mul, ← Nat.succ_mul]
    exact Nat.mul_le_mul_right den hlt
  have hsame : k = num / den → k * den = num / den * den := by
    rintro rfl
    rfl
  have hhalf : 2 * (num % den) = den ∧ (k = num / den ∨ k = num / den + 1) := by
    unfold Nat.dist at htie
    rcases roundQuotient_cases num den with ⟨hround, hhalf⟩ | ⟨hround, hhalf⟩
    · rw [hround] at htie hne
      omega
    · rw [hround, Nat.succ_mul] at htie
      rw [hround] at hne
      omega
  refine ⟨even_roundQuotient_of_half hhalf.1, ?_⟩
  unfold Nat.dist
  rcases roundQuotient_cases num den with ⟨hround, -⟩ | ⟨hround, -⟩
  · omega
  · omega

/-- The exponent of the last bit that is kept of a quotient. -/
def lastBit (num den : Nat) : Nat :=
  (num / den).log2 - 52

theorem roundSignificand_eq (num den : Nat) :
    roundSignificand num den =
      roundQuotient num (den * 2 ^ lastBit num den) * 2 ^ lastBit num den := rfl

theorem div_lt_two_pow_lastBit (num den : Nat) :
    num / den < 2 ^ 53 * 2 ^ lastBit num den := by
  rw [← Nat.pow_add]
  refine Nat.lt_of_lt_of_le Nat.lt_log2_self
    (Nat.pow_le_pow_right (by decide) ?_)
  unfold lastBit
  omega

/-- Below the first 53 bits nothing is kept, but with less bits everything
is. -/
theorem two_pow_lastBit_le (hlast : 0 < lastBit num den) :
    2 ^ 52 * 2 ^ lastBit num den * den ≤ num := by
  unfold lastBit at hlast
  have hne : num / den ≠ 0 := by
    rintro hzero
    rw [hzero] at hlast
    simp at hlast
  have hlog : 2 ^ 52 * 2 ^ lastBit num den = 2 ^ (num / den).log2 := by
    rw [← Nat.pow_add]
    congr 1
    unfold lastBit
    omega
  rw [hlog]
  exact (Nat.mul_le_mul_right den (Nat.log2_self_le hne)).trans
    (Nat.div_mul_le_self num den)

theorem exists_significand (num den : Nat) :
    ∃ significand exponent, significand < 2 ^ 53 ∧
      roundSignificand num den = significand * 2 ^ exponent := by
  have hpow : 0 < 2 ^ lastBit num den := Nat.two_pow_pos _
  have hquotient : num / (den * 2 ^ lastBit num den) < 2 ^ 53 := by
    rw [← Nat.div_div_eq_div_mul, Nat.div_lt_iff_lt_mul hpow]
    exact div_lt_two_pow_lastBit num den
  have hle : roundQuotient num (den * 2 ^ lastBit num den) ≤ 2 ^ 53 := by
    rcases roundQuotient_cases num (den * 2 ^ lastBit num den) with
      ⟨hround, -⟩ | ⟨hround, -⟩
    · rw [hround]
      exact hquotient.le
    · rw [hround]
      exact hquotient
  rw [roundSignificand_eq]
  rcases Nat.lt_or_eq_of_le hle with hlt | hcarry
  · exact ⟨_, _, hlt, rfl⟩
  · refine ⟨2 ^ 52, lastBit num den + 1, by decide, ?_⟩
    rw [hcarry, Nat.pow_succ']
    ring

section

variable (hden : 0 < den)

include hden

/-- Among the multiples of the last bit, none is nearer than the rounded one. -/
theorem dist_roundSignificand_le_multiple (num k : Nat) :
    Nat.dist num (roundSignificand num den * den) ≤
      Nat.dist num (k * 2 ^ lastBit num den * den) := by
  have hstep : 0 < den * 2 ^ lastBit num den :=
    Nat.mul_pos hden (Nat.two_pow_pos _)
  have hnear := dist_roundQuotient_le num hstep k
  rw [roundSignificand_eq, Nat.mul_assoc, Nat.mul_comm (2 ^ _), Nat.mul_assoc k,
    Nat.mul_comm (2 ^ _)]
  exact hnear

omit hden in
/-- What has 53 bits is a multiple of the last bit, unless it lies below the 53
bits that are kept. -/
theorem exists_multiple_or_le (num den exponent : Nat)
    (hsignificand : significand < 2 ^ 53) :
    (∃ k, significand * 2 ^ exponent = k * 2 ^ lastBit num den) ∨
      significand * 2 ^ exponent * den ≤ 2 ^ 52 * 2 ^ lastBit num den * den ∧
        2 ^ 52 * 2 ^ lastBit num den * den ≤ num := by
  rcases Nat.lt_or_ge exponent (lastBit num den) with hlt | hle
  · right
    refine ⟨Nat.mul_le_mul_right den ?_,
      two_pow_lastBit_le (Nat.zero_lt_of_lt hlt)⟩
    calc significand * 2 ^ exponent
        ≤ 2 ^ 53 * 2 ^ exponent := Nat.mul_le_mul_right _ hsignificand.le
      _ = 2 ^ 52 * 2 ^ (exponent + 1) := by ring
      _ ≤ 2 ^ 52 * 2 ^ lastBit num den :=
          Nat.mul_le_mul_left _ (Nat.pow_le_pow_right (by decide) hlt)
  · left
    refine ⟨significand * 2 ^ (exponent - lastBit num den), ?_⟩
    rw [Nat.mul_assoc, ← Nat.pow_add, Nat.sub_add_cancel hle]

/-- No number of 53 bits is nearer to a quotient than the rounded one. -/
theorem dist_roundSignificand_le (num exponent : Nat)
    (hsignificand : significand < 2 ^ 53) :
    Nat.dist num (roundSignificand num den * den) ≤
      Nat.dist num (significand * 2 ^ exponent * den) := by
  rcases exists_multiple_or_le num den exponent hsignificand with
    ⟨k, hk⟩ | ⟨hbelow, hle⟩
  · rw [hk]
    exact dist_roundSignificand_le_multiple hden num k
  · refine (dist_roundSignificand_le_multiple hden num (2 ^ 52)).trans ?_
    unfold Nat.dist
    omega

/-- Of two numbers of 53 bits that are equally near, the even one is chosen. -/
theorem two_dist_dvd_roundSignificand (hsignificand : significand < 2 ^ 53)
    (hne : significand * 2 ^ exponent ≠ roundSignificand num den)
    (htie : Nat.dist num (roundSignificand num den * den) =
      Nat.dist num (significand * 2 ^ exponent * den)) :
    2 * Nat.dist (roundSignificand num den) (significand * 2 ^ exponent) ∣
      roundSignificand num den := by
  obtain ⟨k, hk⟩ : ∃ k, significand * 2 ^ exponent =
    k * 2 ^ lastBit num den := by
      rcases exists_multiple_or_le num den exponent hsignificand with
        hmultiple | ⟨hbelow, hle⟩
      · exact hmultiple
      · -- A number below the kept bits is as near as their first multiple only
        -- if it is that one.
        have hfirst := dist_roundSignificand_le_multiple hden num (2 ^ 52)
        rw [htie] at hfirst
        refine ⟨2 ^ 52, Nat.eq_of_mul_eq_mul_right hden ?_⟩
        unfold Nat.dist at hfirst
        omega
  have hstep : 0 < den * 2 ^ lastBit num den :=
    Nat.mul_pos hden (Nat.two_pow_pos _)
  rw [hk] at hne htie ⊢
  rw [roundSignificand_eq] at hne htie ⊢
  have hassoc : ∀ q, q * 2 ^ lastBit num den * den =
      q * (den * 2 ^ lastBit num den) := by
    intro q
    rw [Nat.mul_assoc, Nat.mul_comm den]
  rw [hassoc, hassoc] at htie
  have hne' : k ≠ roundQuotient num (den * 2 ^ lastBit num den) :=
    fun h => hne (by rw [h])
  obtain ⟨heven, hdist⟩ := even_roundQuotient_of_tie hstep hne' htie
  rw [Nat.dist_mul_right, hdist, Nat.one_mul]
  exact Nat.mul_dvd_mul_right (Nat.dvd_of_mod_eq_zero heven) _

end

/-- A number of units that is a float: one with 53 bits at most, below
2^1024. -/
def IsFloat (x : Binary64) : Prop :=
  x.units.natAbs < limit ∧ ∃ significand exponent, significand < 2 ^ 53 ∧
    x.units.natAbs = significand * 2 ^ exponent

/-- How many units a float is away from an integer. -/
def distance (x : Binary64) (n : Int) : Nat :=
  (x.units - n * one).natAbs

/-- A float is what an integer is rounded to: no float is nearer to the integer.
Where another one is as near, it is even, a multiple of twice the distance of
the two. -/
structure Rounds (n : Int) (x : Binary64) : Prop where
  float : x.IsFloat
  nearest : ∀ y : Binary64, y.IsFloat → x.distance n ≤ y.distance n
  even : ∀ y : Binary64, y.IsFloat → y ≠ x → y.distance n = x.distance n →
    2 * (x.units - y.units) ∣ x.units

theorem Rounds.unique {n : Int} {x y : Binary64} (hx : Rounds n x)
    (hy : Rounds n y) : x = y := by
  by_contra hne
  have hdistance : y.distance n = x.distance n :=
    Nat.le_antisymm (hy.nearest x hx.float) (hx.nearest y hy.float)
  obtain ⟨a, ha⟩ := hx.even y hy.float (Ne.symm hne) hdistance
  obtain ⟨b, hb⟩ := hy.even x hx.float hne hdistance.symm
  have hunits : x.units - y.units ≠ 0 := by
    intro hzero
    exact hne (by cases x; cases y; simpa [sub_eq_zero] using hzero)
  have hodd : (x.units - y.units) * 1 =
      (x.units - y.units) * (2 * (a + b)) := by
    linear_combination ha - hb
  have h12 := mul_left_cancel₀ hunits hodd
  omega

theorem mul_two_pow_lt {i j : Nat} (hk : k < 2 ^ 53) (hij : 53 + i ≤ j) :
    k * 2 ^ i < 2 ^ j := by
  calc k * 2 ^ i
      < 2 ^ 53 * 2 ^ i := Nat.mul_lt_mul_of_pos_right hk (Nat.two_pow_pos i)
    _ = 2 ^ (53 + i) := (Nat.pow_add 2 53 i).symm
    _ ≤ 2 ^ j := Nat.pow_le_pow_right (by decide) hij

theorem one_eq : one = 2 ^ 1074 := by
  unfold one
  generalize 1074 = exponent
  exact Nat.pow_eq

theorem limit_eq : limit = 2 ^ 2098 := by
  unfold limit
  generalize 2098 = exponent
  exact Nat.pow_eq

theorem isFloat_of_lt {c : Int} (hc : c.natAbs < 2 ^ 53) :
    IsFloat ⟨c * one⟩ := by
  have hunits : (c * one : Int).natAbs = c.natAbs * 2 ^ 1074 := by
    rw [Int.natAbs_mul, Int.natAbs_natCast, one_eq]
  refine ⟨?_, c.natAbs, 1074, hc, hunits⟩
  rw [hunits, limit_eq]
  exact mul_two_pow_lt hc (by omega)

variable {n c : Int} {x : Binary64}

/-- Rounding keeps the order of an integer and a float below it. -/
theorem Rounds.le_units (hx : Rounds n x) (hc : c.natAbs < 2 ^ 53)
    (hle : c ≤ n) :
    c * one ≤ x.units := by
  have hnear := hx.nearest _ (isFloat_of_lt hc)
  have hmul : c * (one : Int) ≤ n * one :=
    Int.mul_le_mul_of_nonneg_right hle (Int.natCast_nonneg _)
  unfold distance at hnear
  dsimp only at hnear
  omega

theorem Rounds.units_le (hx : Rounds n x) (hc : c.natAbs < 2 ^ 53)
    (hle : n ≤ c) :
    x.units ≤ c * one := by
  have hnear := hx.nearest _ (isFloat_of_lt hc)
  have hmul : n * (one : Int) ≤ c * one :=
    Int.mul_le_mul_of_nonneg_right hle (Int.natCast_nonneg _)
  unfold distance at hnear
  dsimp only at hnear
  omega

/-- An integer of 53 bits is a float, and is not changed. -/
theorem Rounds.units_eq (hx : Rounds n x) (hn : n.natAbs < 2 ^ 53) :
    x.units = n * one :=
  Int.le_antisymm (hx.units_le hn (Int.le_refl n))
    (hx.le_units hn (Int.le_refl n))

theorem dist_le_distance (n : Int) (y : Binary64) :
    Nat.dist (n.natAbs * one) y.units.natAbs ≤ y.distance n := by
  have hunits : (n * one : Int).natAbs = n.natAbs * one := by
    rw [Int.natAbs_mul, Int.natAbs_natCast]
  rw [← hunits]
  unfold Nat.dist distance
  omega

def magnitude (n : Int) : Nat :=
  roundSignificand (n.natAbs * one) 1

theorem ofInt?_eq_some_iff :
    ofInt? n = some x ↔
      magnitude n < limit ∧ x.units = if n < 0 then -(magnitude n : Int)
        else magnitude n := by
  obtain ⟨units⟩ := x
  unfold ofInt? nearest?
  change (if magnitude n < limit then _ else _) = _ ↔ _
  split
  next hfinite =>
    simp only [Option.some.injEq, Binary64.mk.injEq, decide_eq_true_eq,
      hfinite, true_and]
    exact eq_comm
  next hinfinite => simp [hinfinite]

theorem natAbs_units (hround : ofInt? n = some x) :
    x.units.natAbs = magnitude n := by
  have hunits := (ofInt?_eq_some_iff.mp hround).2
  split at hunits <;> omega

theorem natAbs_sub_natAbs_mul (a b m : Nat) (n : Int)
    (hb : (b : Int) = n.natAbs * m) :
    ((if n < 0 then -(a : Int) else a) - n * m).natAbs = Nat.dist b a := by
  unfold Nat.dist
  split
  next hneg =>
    have hn : n = -(n.natAbs : Int) := by omega
    rw [hn, Int.neg_mul, ← hb]
    omega
  next hpos =>
    have hn : n = (n.natAbs : Int) := by omega
    rw [hn, ← hb]
    omega

/-- The sign is kept, so the distance is that of the magnitudes. -/
theorem distance_eq_dist (hround : ofInt? n = some x) :
    x.distance n = Nat.dist (n.natAbs * one) (magnitude n) := by
  unfold distance
  rw [(ofInt?_eq_some_iff.mp hround).2]
  exact natAbs_sub_natAbs_mul _ _ _ n (Int.natCast_mul _ _)

theorem IsFloat.dist_magnitude_le {y : Binary64} (hy : y.IsFloat) (n : Int) :
    Nat.dist (n.natAbs * one) (magnitude n) ≤
      Nat.dist (n.natAbs * one) y.units.natAbs := by
  obtain ⟨-, significand, exponent, hsignificand, hunits⟩ := hy
  have hnear :=
    dist_roundSignificand_le Nat.one_pos (n.natAbs * one) exponent hsignificand
  rw [Nat.mul_one, Nat.mul_one, ← hunits] at hnear
  exact hnear

theorem IsFloat.two_dist_dvd_magnitude {y : Binary64} (hy : y.IsFloat)
    (hne : y.units.natAbs ≠ magnitude n)
    (htie : Nat.dist (n.natAbs * one) (magnitude n) =
      Nat.dist (n.natAbs * one) y.units.natAbs) :
    2 * Nat.dist (magnitude n) y.units.natAbs ∣ magnitude n := by
  obtain ⟨-, significand, exponent, hsignificand, hunits⟩ := hy
  rw [hunits] at hne htie ⊢
  refine two_dist_dvd_roundSignificand Nat.one_pos hsignificand hne ?_
  rw [Nat.mul_one, Nat.mul_one]
  exact htie

/-- Numbers that are no farther from another one than zero lie on its side. -/
theorem natAbs_sub_eq_dist {a u v : Int} (hu : (u - a).natAbs ≤ a.natAbs)
    (hv : (v - a).natAbs ≤ a.natAbs) :
    (u - v).natAbs = Nat.dist u.natAbs v.natAbs := by
  unfold Nat.dist
  rcases Int.le_total 0 a with hpos | hneg
  · have hside : 0 ≤ u ∧ 0 ≤ v := by omega
    omega
  · have hside : u ≤ 0 ∧ v ≤ 0 := by omega
    omega

/-- What an integer is rounded to is the nearest float, and the even one of
two. -/
theorem rounds_of_ofInt? (hround : ofInt? n = some x) : Rounds n x := by
  have habs := natAbs_units hround
  have hdistance := distance_eq_dist hround
  have hnearest : ∀ y : Binary64, y.IsFloat → x.distance n ≤ y.distance n := by
    intro y hy
    rw [hdistance]
    exact (hy.dist_magnitude_le n).trans (dist_le_distance n y)
  refine ⟨⟨?_, ?_⟩, hnearest, ?_⟩
  · rw [habs]
    exact (ofInt?_eq_some_iff.mp hround).1
  · rw [habs]
    exact exists_significand _ _
  · intro y hy hne htie
    have hunits : y.units ≠ x.units := by
      intro hunits
      exact hne (by cases x; cases y; exact congrArg _ hunits)
    have hzero : x.distance n ≤ (n * one : Int).natAbs := by
      have hzero := hnearest ⟨0 * one⟩ (isFloat_of_lt (by decide))
      unfold distance at hzero ⊢
      dsimp only at hzero
      rwa [Int.zero_mul, Int.zero_sub, Int.natAbs_neg] at hzero
    -- Both lie on the side of the integer: on the other side only zero could be
    -- as near.
    have hside : (x.units - y.units).natAbs =
        Nat.dist (magnitude n) y.units.natAbs := by
      rw [← habs]
      exact natAbs_sub_eq_dist hzero (htie.trans_le hzero)
    have htie' : Nat.dist (n.natAbs * one) (magnitude n) =
        Nat.dist (n.natAbs * one) y.units.natAbs := by
      refine Nat.le_antisymm (hy.dist_magnitude_le n) ?_
      rw [← hdistance, ← htie]
      exact dist_le_distance n y
    rw [← Int.natAbs_dvd_natAbs, Int.natAbs_mul, habs, hside]
    refine hy.two_dist_dvd_magnitude ?_ htie'
    intro hsame
    rw [hsame, Nat.dist_self] at hside
    exact hunits (Int.sub_eq_zero.mp (Int.natAbs_eq_zero.mp hside)).symm

theorem two_pow_mul_one_lt_limit (hk : k ≤ 971) : 2 ^ k * one < limit := by
  rw [one_eq, limit_eq, ← Nat.pow_add, ← Nat.one_mul (2 ^ (k + 1074))]
  exact mul_two_pow_lt (by decide) (by omega)

theorem isFloat_two_pow (hk : k ≤ 971) : IsFloat ⟨(2 ^ k * one : Nat)⟩ := by
  refine ⟨two_pow_mul_one_lt_limit hk, 1, k + 1074, by decide, ?_⟩
  rw [Int.natAbs_natCast, one_eq, Nat.one_mul, Nat.pow_add]

/-- An integer that is not too large is rounded to a float. -/
theorem exists_ofInt? (hk : k ≤ 971) (hn : n.natAbs ≤ 2 ^ k) : ∃ x,
    ofInt? n = some x := by
  have hmagnitude : magnitude n < limit := by
    have hnear := (isFloat_two_pow hk).dist_magnitude_le n
    have hle : n.natAbs * one ≤ 2 ^ k * one := Nat.mul_le_mul_right one hn
    have hlimit := two_pow_mul_one_lt_limit hk
    rw [Int.natAbs_natCast] at hnear
    unfold Nat.dist at hnear
    omega
  exact ⟨⟨_⟩, ofInt?_eq_some_iff.mpr ⟨hmagnitude, rfl⟩⟩

/-- Rounding gives the one float that is nearest, or the even one of two. -/
theorem ofInt?_eq_some_iff_rounds (hk : k ≤ 971) (hn : n.natAbs ≤ 2 ^ k) :
    ofInt? n = some x ↔ Rounds n x := by
  obtain ⟨y, hy⟩ := exists_ofInt? hk hn
  constructor
  · exact rounds_of_ofInt?
  · intro hx
    rw [hy, hx.unique (rounds_of_ofInt? hy)]

end SchemaForms.Binary64
