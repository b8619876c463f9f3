/-!
Finite 64-bit binary floats as exact values.  Every one of them is a whole
number of least positive floats, 2^-1074, so a float is that number and rounding
is integer arithmetic.  `nearest?` rounds a quotient as IEEE 754 does by
default: to the nearest float, a tie to the one with the even significand.  A
decimal becomes a float exactly by `ofDecimal?`, which rounds once, or quickly
by `scaled?`, which rounds at each step.
-/

namespace SchemaForms

/-- A finite 64-bit float, counted in units of 2^-1074.  The two zeros are one
value. -/
structure Binary64 where
  units : Int
deriving DecidableEq

/-- A decimal: `digits` times ten to the `exponent`, below zero when
`negative`. -/
structure Decimal where
  negative : Bool
  digits : Nat
  exponent : Int
deriving DecidableEq

namespace Binary64

def one : Nat := Nat.pow 2 1074

/-- The units of 2^1024, the least magnitude that is too large. -/
def limit : Nat := Nat.pow 2 2098

/-- A quotient rounded to the nearest number, a tie to the even one. -/
def roundQuotient (num den : Nat) : Nat :=
  let quotient := num / den
  let rest := num % den
  if 2 * rest < den ∨ 2 * rest = den ∧ quotient % 2 = 0 then quotient
  else quotient + 1

/-- A quotient rounded to the nearest number of at most 53 significant bits. -/
def roundSignificand (num den : Nat) : Nat :=
  let step := Nat.pow 2 ((num / den).log2 - 52)
  roundQuotient num (den * step) * step

/-- The float nearest to a quotient, unless that is beyond the finite floats. -/
def nearest? (negative : Bool) (num den : Nat) : Option Binary64 :=
  let magnitude := roundSignificand (num * one) den
  if magnitude < limit then some ⟨if negative then -magnitude else magnitude⟩
  else none

def ofInt? (n : Int) : Option Binary64 :=
  nearest? (decide (n < 0)) n.natAbs 1

def toRat (x : Binary64) : Rat :=
  mkRat x.units one

/-- The value, if it has no fraction. -/
def toInt? (x : Binary64) : Option Int :=
  if x.units % one = 0 then some (x.units / one) else none

def mul? (x y : Binary64) : Option Binary64 :=
  nearest? (decide (x.units * y.units < 0)) (x.units * y.units).natAbs
    (one * one)

/-- The quotient, rounded.  There is none by zero. -/
def div? (x y : Binary64) : Option Binary64 :=
  if y.units = 0 then none
  else nearest? (decide (x.units * y.units < 0)) x.units.natAbs y.units.natAbs

/-- The float nearest to a decimal.  A decimal whose first digit stands far
beyond the largest float overflows and one far below the least float is zero;
neither is computed in full. -/
def ofDecimal? (d : Decimal) : Option Binary64 :=
  let width := (Nat.toDigits 10 d.digits).length
  if d.digits = 0 then some ⟨0⟩
  else if d.exponent + width > 400 then none
  else if d.exponent + width < -400 then some ⟨0⟩
  else if d.exponent < 0 then
    nearest? d.negative d.digits (Nat.pow 10 d.exponent.natAbs)
  else nearest? d.negative (d.digits * Nat.pow 10 d.exponent.toNat) 1

/-- The exponent of the greatest power of ten that is not beyond the finite
floats. -/
def maxTenPower : Nat := 308

def tenPower? (k : Nat) : Option Binary64 :=
  if k ≤ maxTenPower then nearest? false (Nat.pow 10 k) 1 else none

/-- The product with a power of ten that is itself a rounded float. -/
def scaleUp? (x : Binary64) (k : Nat) : Option Binary64 :=
  if x.units = 0 then some x else do x.mul? (← tenPower? k)

/-- The quotient by a power of ten that is itself a rounded float.  A power that
is too large divides in several steps. -/
def scaleDown? (x : Binary64) (k : Nat) : Option Binary64 :=
  if x.units = 0 then some x
  else if _small : k ≤ maxTenPower then do x.div? (← tenPower? k)
  else do scaleDown? (← x.div? (← tenPower? maxTenPower)) (k - maxTenPower)
termination_by k
decreasing_by
  rw [maxTenPower] at _small ⊢
  omega

/-- The float to which a decimal comes in float arithmetic: its digits are
rounded to a float, which is multiplied or divided by a power of ten.  Each step
rounds, so this need not be the nearest float. -/
def scaled? (d : Decimal) : Option Binary64 := do
  let significand ← nearest? d.negative d.digits 1
  if d.exponent < 0 then significand.scaleDown? d.exponent.natAbs
  else significand.scaleUp? d.exponent.toNat

example : ofInt? 255 = some ⟨255 * one⟩ := by decide +kernel

/-- Between two floats the even significand wins a tie. -/
example : ofInt? 9007199254740993 = some ⟨9007199254740992 * one⟩ ∧
    ofInt? 9007199254740995 = some ⟨9007199254740996 * one⟩ := by decide +kernel

/-- Both steps round here: the digits to a multiple of two, and the quotient to
a whole number. -/
example : scaled? ⟨false, 10000000000000001, -14⟩ = some ⟨100 * one⟩ ∧
    ofDecimal? ⟨false, 10000000000000001, -14⟩ ≠ some ⟨100 * one⟩ := by
  decide +kernel

end Binary64

end SchemaForms
