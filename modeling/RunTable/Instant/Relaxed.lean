import RunTable.Instant.Text
import RunTable.Text.Blank

/-!
# Instants in stored records

Records written by other programs spell instants more loosely, and reading them is as loose: blanks
may stand in front of each field and separator, fields may leave out leading zeros, the year may
have a sign and then any number of digits, and universal time may be called `UTC`. What such a text
describes is the same kind of instant, and the calendar is as strict as before.
-/

namespace RunTable.Instant

/-- Reads a number of one to `width` digits, blanks in front skipped. -/
def readUpTo (width : Nat) (cs : List Char) : Option (Nat × List Char) :=
  let cs := Text.trimLeft cs
  match (leadingDigits cs).take width with
  | [] => none
  | digits => some (digits.foldl (fun acc d => 10 * acc + d) 0, cs.drop digits.length)

/-- Reads a year: up to four digits, or a sign and any number of digits. -/
def readYear (cs : List Char) : Option (Int × List Char) :=
  match Text.trimLeft cs with
  | '-' :: rest => (signed rest).map fun (n, rest) => (-(n : Int), rest)
  | '+' :: rest => (signed rest).map fun (n, rest) => ((n : Int), rest)
  | cs => (readUpTo 4 cs).map fun (n, rest) => ((n : Int), rest)
where
  /-- Digits right behind a sign. -/
  signed (cs : List Char) : Option (Nat × List Char) :=
    if (leadingDigits cs).isEmpty then none else readUpTo cs.length cs

/-- Reads a separator, blanks in front skipped. -/
def readSeparator (separator : Char) (cs : List Char) : Option (List Char) :=
  readChar separator (Text.trimLeft cs)

/-- Skips colons and blanks between the hours and the minutes of an offset. -/
def skipColons (cs : List Char) : List Char := cs.dropWhile fun c => c == ':' || Text.isBlank c

/-- Reads the name of universal time or an offset, blanks in front skipped. -/
def readZone (cs : List Char) : Option (Int × List Char) :=
  let cs := Text.trimLeft cs
  if (cs.take 3).map Char.toUpper = ['U', 'T', 'C'] then some (0, cs.drop 3)
  else readOffset (fun cs => some (skipColons cs)) cs

/-- Reads an instant in the relaxed form. -/
def readRelaxed (cs : List Char) : Option (Instant × List Char) := do
  let (year, cs) ← readYear cs
  let cs ← readSeparator '-' cs
  let (month, cs) ← readUpTo 2 cs
  let cs ← readSeparator '-' cs
  let (day, cs) ← readUpTo 2 cs
  let cs ← readDivider cs
  let (hour, cs) ← readUpTo 2 cs
  let cs ← readSeparator ':' cs
  let (minute, cs) ← readUpTo 2 cs
  let cs ← readSeparator ':' cs
  let (second, cs) ← readUpTo 2 cs
  let (nanos, cs) ← readFraction cs
  let (offset, cs) ← readZone cs
  return (← ofClock? { year, month, day } hour minute second nanos offset, cs)

/-- The instant that a text in the relaxed form describes; only blanks may stand behind it. -/
def ofRelaxedText? (text : String) : Option Instant :=
  match readRelaxed text.toList with
  | some (t, rest) => if (Text.trimLeft rest).isEmpty then some t else none
  | none => none

end RunTable.Instant
