/-!
# Calendar dates

Dates follow the Gregorian rule for all years, before its introduction too. Days are counted from
1970-01-01. Both directions go through the number of days before a year, a closed formula, so a
date is found from its day number by one estimate of the year that is off by at most one.
-/

namespace RunTable

structure Date where
  /-- The year; year zero is the one before year one. -/
  year : Int
  /-- From 1 for January to 12. -/
  month : Nat
  /-- The day of the month, from 1. -/
  day : Nat
deriving DecidableEq

namespace Date

/-- Whether a year has a 29th of February. -/
def isLeapYear (year : Int) : Bool := year % 4 == 0 && (year % 100 != 0 || year % 400 == 0)

def monthLengths (year : Int) : List Nat :=
  [31, if isLeapYear year then 29 else 28, 31, 30, 31, 30, 31, 31, 30, 31, 30, 31]

/-- The days from the first day of year one up to the first day of a year. -/
def daysBeforeYear (year : Int) : Int :=
  let past := year - 1
  365 * past + past / 4 - past / 100 + past / 400

/-- The days from the first day of year one up to 1970-01-01. -/
def epochDays : Int := daysBeforeYear 1970

/-- The years that instants may fall into. -/
def inRange (year : Int) : Bool := decide (-262143 ≤ year ∧ year ≤ 262142)

def isValid (date : Date) : Bool :=
  inRange date.year && decide (1 ≤ date.month) && decide (1 ≤ date.day)
    && (((monthLengths date.year)[date.month - 1]?).any fun length => date.day ≤ length)

/-- The days in the first so many months. -/
def daysInMonths : List Nat → Nat → Nat
  | length :: lengths, count + 1 => length + daysInMonths lengths count
  | _, _ => 0

/-- The number of the day, 0 for 1970-01-01. -/
def dayNumber (date : Date) : Int :=
  daysBeforeYear date.year - epochDays + daysInMonths (monthLengths date.year) (date.month - 1)
    + (date.day - 1 : Nat)

/-- The month, from 1, and the day of the month, from 1, that a day of the year falls on. -/
def inMonths : List Nat → Nat → Nat × Nat
  | [], day => (1, day + 1)
  | length :: lengths, day =>
    if day < length then (1, day + 1)
    else
      let (month, day) := inMonths lengths (day - length)
      (month + 1, day)

/-- The year that a day since the first day of year one falls into. -/
def yearOf (days : Int) : Int :=
  let estimate := days * 400 / 146097 + 1
  if days < daysBeforeYear estimate then estimate - 1
  else if daysBeforeYear (estimate + 1) ≤ days then estimate + 1
  else estimate

def ofDayNumber (number : Int) : Date :=
  let days := number + epochDays
  let year := yearOf days
  let (month, day) := inMonths (monthLengths year) (days - daysBeforeYear year).toNat
  { year, month, day }

/-- A year is as long as its months together. -/
theorem daysBeforeYear_succ (year : Int) :
    daysBeforeYear (year + 1) = daysBeforeYear year + daysInMonths (monthLengths year) 12 := by
  have hlen : (daysInMonths (monthLengths year) 12 : Int)
      = if isLeapYear year then 366 else 365 := by
    unfold monthLengths; split <;> simp [daysInMonths]
  rw [hlen]
  simp only [daysBeforeYear, isLeapYear, Bool.and_eq_true, Bool.or_eq_true, beq_iff_eq, bne_iff_ne]
  split <;> omega

end Date

end RunTable
