import RunTable.Instant.Basic
import RunTable.Text.Numeral

/-!
# Instants as text

An instant is written in universal time with a `Z` behind it: with three digits of the second's
fraction where rows are computed, and with as few of zero, three, six or nine digits as lose nothing
where records are stored. Years of four digits are written bare, all others with their sign.

Reading takes every field at its full width and any offset of less than a day.
-/

namespace RunTable.Instant

/-! ## Writing -/

/-- A year: four digits, with a sign outside 0 to 9999. -/
def yearText (year : Int) : String :=
  if year < 0 then "-" ++ Numeral.padded 4 year.natAbs
  else if 9999 < year then "+" ++ Numeral.padded 4 year.natAbs
  else Numeral.padded 4 year.natAbs

/-- The date and the time up to the second. -/
def clockText (t : Instant) : String :=
  let date := Date.ofDayNumber t.dayNumber
  let clock := t.secondOfDay.toNat
  let second := clock % 60 + if t.isLeap then 1 else 0
  yearText date.year ++ "-" ++ Numeral.padded 2 date.month ++ "-" ++ Numeral.padded 2 date.day
    ++ "T" ++ Numeral.padded 2 (clock / 3600) ++ ":" ++ Numeral.padded 2 (clock / 60 % 60)
    ++ ":" ++ Numeral.padded 2 second

/-- The nanoseconds of the second on the clock. -/
def fraction (t : Instant) : Nat := t.nanos % nanosPerSecond

/-- The text with three digits of the fraction. -/
def text (t : Instant) : String :=
  t.clockText ++ "." ++ Numeral.padded 3 (t.fraction / 1000000) ++ "Z"

/-- The text with the fewest of zero, three, six or nine digits that lose nothing. -/
def exactText (t : Instant) : String :=
  let fraction :=
    if t.fraction = 0 then ""
    else if t.fraction % 1000000 = 0 then "." ++ Numeral.padded 3 (t.fraction / 1000000)
    else if t.fraction % 1000 = 0 then "." ++ Numeral.padded 6 (t.fraction / 1000)
    else "." ++ Numeral.padded 9 t.fraction
  t.clockText ++ fraction ++ "Z"

/-! ## Reading -/

/-- Reads a number of exactly so many digits, behind those already read into `acc`. -/
def readDigits (acc : Nat) : Nat → List Char → Option (Nat × List Char)
  | 0, cs => some (acc, cs)
  | _ + 1, [] => none
  | width + 1, c :: cs =>
    match Numeral.digit? c with
    | some d => readDigits (10 * acc + d) width cs
    | none => none

def readChar (expected : Char) : List Char → Option (List Char)
  | [] => none
  | c :: cs => if c = expected then some cs else none

/-- Reads what stands between date and time: one `T`, `t` or blank. -/
def readDivider : List Char → Option (List Char)
  | c :: cs => if c = 'T' ∨ c = 't' ∨ c = ' ' then some cs else none
  | [] => none

/-- The nanoseconds that fraction digits stand for; digits behind the ninth count for nothing. -/
def fractionNanos (digits : List Nat) : Nat :=
  let kept := digits.take 9
  kept.foldl (fun acc d => 10 * acc + d) 0 * Nat.pow 10 (9 - kept.length)

def leadingDigits (cs : List Char) : List Nat :=
  (cs.takeWhile Char.isDigit).filterMap Numeral.digit?

/-- Reads the fraction of a second, none for nothing. -/
def readFraction : List Char → Option (Nat × List Char)
  | '.' :: cs =>
    match leadingDigits cs with
    | [] => none
    | digits => some (fractionNanos digits, cs.dropWhile Char.isDigit)
  | cs => some (0, cs)

/-- Reads a sign: whether it is negative. The minus sign may be the typographic one. -/
def readSign : List Char → Option (Bool × List Char)
  | c :: cs =>
    if c = '+' then some (false, cs)
    else if c = '-' ∨ c = '\u2212' then some (true, cs)
    else none
  | [] => none

/-- Reads an offset in seconds: `Z`, or a sign, two digits of hours, a divider and two digits of
minutes. -/
def readOffset (divider : List Char → Option (List Char)) (cs : List Char) :
    Option (Int × List Char) :=
  match cs with
  | 'Z' :: rest => some (0, rest)
  | 'z' :: rest => some (0, rest)
  | _ => do
    let (negative, cs) ← readSign cs
    let (hours, cs) ← readDigits 0 2 cs
    let cs ← divider cs
    let (minutes, cs) ← readDigits 0 2 cs
    let seconds : Int := hours * 3600 + minutes * 60
    if hours < 24 ∧ minutes < 60 then return (if negative then -seconds else seconds, cs) else none

/-- Reads an instant whose fields have their full width. -/
def readFull (cs : List Char) : Option (Instant × List Char) := do
  let (year, cs) ← readDigits 0 4 cs
  let cs ← readChar '-' cs
  let (month, cs) ← readDigits 0 2 cs
  let cs ← readChar '-' cs
  let (day, cs) ← readDigits 0 2 cs
  let cs ← readDivider cs
  let (hour, cs) ← readDigits 0 2 cs
  let cs ← readChar ':' cs
  let (minute, cs) ← readDigits 0 2 cs
  let cs ← readChar ':' cs
  let (second, cs) ← readDigits 0 2 cs
  let (nanos, cs) ← readFraction cs
  let (offset, cs) ← readOffset (readChar ':') cs
  return (← ofClock? { year, month, day } hour minute second nanos offset, cs)

/-- The instant that a text describes, every field at its full width and nothing behind it. -/
def ofText? (text : String) : Option Instant :=
  match readFull text.toList with
  | some (t, []) => some t
  | _ => none

end RunTable.Instant
