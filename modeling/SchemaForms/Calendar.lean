/-!
Dates of the proleptic Gregorian calendar and times of day.
-/

namespace SchemaForms

/-- Every fourth year is a leap year, but of the full centuries only every
fourth. -/
def isLeapYear (year : Nat) : Bool :=
  year % 4 == 0 && (year % 100 != 0 || year % 400 == 0)

/-- The length of a month, which is zero for a month that does not exist. -/
def daysInMonth (year : Nat) : Nat → Nat
  | 1 | 3 | 5 | 7 | 8 | 10 | 12 => 31
  | 4 | 6 | 9 | 11 => 30
  | 2 => if isLeapYear year then 29 else 28
  | _ => 0

def isDate (year month day : Nat) : Bool :=
  1 ≤ day && day ≤ daysInMonth year month

/-- Whether a time of day exists.  Any minute may hold a leap second. -/
def isTimeOfDay (hour minute second : Nat) : Bool :=
  hour < 24 && minute < 60 && second ≤ 60

def isUtcOffset (hour minute : Nat) : Bool :=
  hour < 24 && minute < 60

example : isDate 2024 2 29 ∧ ¬ isDate 1900 2 29 ∧ isDate 2000 2 29 ∧
    ¬ isDate 2023 13 1 := by decide

end SchemaForms
