import RunTable.Instant.Calendar

/-!
# Instants

An instant is a second of universal time and the nanoseconds within it. A leap second has no
number of its own: it is the second before, with a thousand million nanoseconds or more. Such an
instant keeps its place between its neighbours when durations are taken, and it is the reason why
differences are computed from days and times of day.
-/

namespace RunTable

/-- A point in universal time. -/
structure Instant where
  /-- Seconds since 1970-01-01, leap seconds not counted. -/
  seconds : Int
  /-- Nanoseconds within the second; a thousand million more within a leap second. -/
  nanos : Nat
deriving DecidableEq

namespace Instant

def nanosPerSecond : Nat := 1000000000

def secondsPerDay : Int := 86400

def dayNumber (t : Instant) : Int := t.seconds / secondsPerDay

def secondOfDay (t : Instant) : Int := t.seconds % secondsPerDay

def isLeap (t : Instant) : Bool := decide (nanosPerSecond ≤ t.nanos)

/-- The instant that a date and a time of day describe, the offset from universal time given in
seconds. The second 60 is the leap second behind second 59. -/
def ofClock? (date : Date) (hour minute second nanos : Nat) (offset : Int) : Option Instant :=
  if date.isValid && decide (hour < 24) && decide (minute < 60) && decide (second ≤ 60) then
    let clock : Nat := hour * 3600 + minute * 60 + min second 59
    some {
      seconds := date.dayNumber * secondsPerDay + clock - offset
      nanos := if second = 60 then nanos + nanosPerSecond else nanos }
  else none

/-- Milliseconds since 1970-01-01, the nanoseconds within the second included, rounded down. -/
def unixMillis (t : Instant) : Int := t.seconds * 1000 + (t.nanos / 1000000 : Nat)

/-- The nanoseconds from the second instant to the first. A leap second counts when it lies between
the two times of day. -/
def nanosSince (a b : Instant) : Int :=
  let leap : Int :=
    if b.secondOfDay < a.secondOfDay then (if b.isLeap then 1 else 0)
    else if a.secondOfDay < b.secondOfDay then (if a.isLeap then -1 else 0)
    else 0
  let days := a.dayNumber - b.dayNumber
  let seconds := days * secondsPerDay + (a.secondOfDay - b.secondOfDay) + leap
  seconds * nanosPerSecond + (a.nanos - b.nanos)

/-- The whole milliseconds from the second instant to the first; a rest is dropped. -/
def millisSince (a b : Instant) : Int := (a.nanosSince b).tdiv 1000000

/-- The instant at some nanoseconds, of either sign, from the start of a second. -/
def atNanos (seconds nanos : Int) : Instant :=
  { seconds := seconds + nanos / nanosPerSecond, nanos := (nanos % nanosPerSecond).toNat }

/-- The instant a number of seconds and nanoseconds later, both of one sign. A step of less than a
second that does not reach the end of a leap second stays in it; every other step out of one counts
from the second before it or, backwards, from the second behind it. -/
def later (t : Instant) (seconds nanos : Int) : Instant :=
  if t.isLeap then
    let fraction : Int := t.nanos - nanosPerSecond
    if 0 < seconds ∨ (0 < nanos ∧ nanosPerSecond ≤ fraction + nanos) then
      atNanos (t.seconds + seconds) (fraction + nanos)
    else if seconds < 0 then atNanos (t.seconds + 1 + seconds) (fraction + nanos)
    else { t with nanos := (t.nanos + nanos).toNat }
  else atNanos (t.seconds + seconds) (t.nanos + nanos)

def earlier (t : Instant) (millis : Int) : Instant :=
  t.later ((-millis).tdiv 1000) ((-millis).tmod 1000 * 1000000)

end Instant

end RunTable
