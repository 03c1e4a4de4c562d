import RunTable.Json.Basic
import RunTable.Double.Text
import RunTable.Table
import RunTable.Text.Numeral

/-!
# Reading JSON

A reader takes characters and gives a value and the characters behind it, or nothing. Each nested
array or object uses up one of a fixed number of levels, and the readers recurse on the levels
left, so the recursion that follows the nesting of the text is bounded by a number and not by the
text.

What the grammar leaves open is settled here. An integer that fits 64 bits, signed or unsigned, is
exact, and every other number is a double, `-0` included; a number beyond the finite doubles is
refused. A repeated member keeps its first place and takes its last value. An escape that names
half of a surrogate pair alone is refused, and so is a control character that is not escaped.
-/

namespace RunTable.Json

/-- How deep arrays and objects may nest. -/
def maxNesting : Nat := 127

/-- Whether a character may stand between the tokens of a JSON text. -/
def isSpace (c : Char) : Bool := c == ' ' || c == '\t' || c == '\n' || c == '\r'

def skipSpace (cs : List Char) : List Char := cs.dropWhile isSpace

/-- The characters behind an expected beginning. -/
def expect? : List Char → List Char → Option (List Char)
  | [], cs => some cs
  | _ :: _, [] => none
  | e :: es, c :: cs => if c = e then expect? es cs else none

/-! ## Texts -/

def hexValue? (c : Char) : Option Nat :=
  if '0' ≤ c ∧ c ≤ '9' then some (c.toNat - '0'.toNat)
  else if 'a' ≤ c ∧ c ≤ 'f' then some (c.toNat - 'a'.toNat + 10)
  else if 'A' ≤ c ∧ c ≤ 'F' then some (c.toNat - 'A'.toNat + 10)
  else none

/-- The 16-bit unit that four hexadecimal digits name. -/
def unit? (a b c d : Char) : Option Nat := do
  return ((((← hexValue? a) * 16 + (← hexValue? b)) * 16 + (← hexValue? c)) * 16) + (← hexValue? d)

/-- The character that one unit stands for, if it is no half of a pair. -/
def ofUnit? (n : Nat) : Option Char :=
  if 0xD800 ≤ n ∧ n < 0xE000 then none else some (Char.ofNat n)

/-- The character that two units stand for, if they are the halves of a pair in order. -/
def ofUnits? (high low : Nat) : Option Char :=
  if 0xD800 ≤ high ∧ high < 0xDC00 ∧ 0xDC00 ≤ low ∧ low < 0xE000 then
    some (Char.ofNat (0x10000 + (high - 0xD800) * 0x400 + (low - 0xDC00)))
  else none

/-- The character behind a backslash, for the escapes of one letter. -/
def ofLetter? : Char → Option Char
  | '"' => some '"'
  | '\\' => some '\\'
  | '/' => some '/'
  | 'b' => some '\x08'
  | 'f' => some '\x0c'
  | 'n' => some '\n'
  | 'r' => some '\r'
  | 't' => some '\t'
  | _ => none

/-- One character in front of a text already read. -/
def consText (c : Char) : List Char × List Char → List Char × List Char
  | (text, rest) => (c :: text, rest)

/-- Reads the rest of a text behind its opening quote, up to and over the closing one. -/
def readText : List Char → Option (List Char × List Char)
  | '"' :: rest => some ([], rest)
  | '\\' :: 'u' :: a :: b :: c :: d :: '\\' :: 'u' :: e :: f :: g :: h :: rest =>
    match unit? a b c d with
    | none => none
    | some first =>
      match ofUnit? first with
      | some char => (readText ('\\' :: 'u' :: e :: f :: g :: h :: rest)).map (consText char)
      | none =>
        match (unit? e f g h).bind (ofUnits? first) with
        | some char => (readText rest).map (consText char)
        | none => none
  | '\\' :: 'u' :: a :: b :: c :: d :: rest =>
    match (unit? a b c d).bind ofUnit? with
    | some char => (readText rest).map (consText char)
    | none => none
  | '\\' :: letter :: rest =>
    match ofLetter? letter with
    | some char => (readText rest).map (consText char)
    | none => none
  | c :: rest => if c.toNat < 0x20 ∨ c = '\\' then none else (readText rest).map (consText c)
  | [] => none

/-! ## Numbers -/

/-- Decimal digits in front of the rest: their values and what follows them. -/
def digitRun : List Char → List Nat × List Char
  | [] => ([], [])
  | c :: rest =>
    match Numeral.digit? c with
    | some d => let (ds, after) := digitRun rest; (d :: ds, after)
    | none => ([], c :: rest)

/-- Appends digits to a number for as long as it fits 64 bits; the number and how many digits did
not fit. -/
def appendDigits (acc : Nat) : List Nat → Nat × Nat
  | [] => (acc, 0)
  | d :: ds =>
    if Word.fitsUnsigned (acc * 10 + d : Nat) then appendDigits (acc * 10 + d) ds
    else (acc, ds.length + 1)

/-- An exponent behind its `e`: its value and what follows. -/
def readExponent (cs : List Char) : Option (Int × List Char) :=
  let (negative, cs) :=
    match cs with
    | '+' :: rest => (false, rest)
    | '-' :: rest => (true, rest)
    | _ => (false, cs)
  match digitRun cs with
  | ([], _) => none
  | (ds, rest) =>
    let magnitude : Nat := ds.foldl (fun acc d => acc * 10 + d) 0
    some (if negative then -(magnitude : Int) else magnitude, rest)

/-- The part of a number behind its integer digits. -/
structure Tail where
  /-- Digits behind the point, if there is one. -/
  fraction : Option (List Nat)
  exponent : Option Int

/-- Reads a fraction and an exponent, each of which may be absent. -/
def readTail (cs : List Char) : Option (Tail × List Char) := do
  let (fraction, cs) ←
    match cs with
    | '.' :: rest =>
      match digitRun rest with
      | ([], _) => none
      | (ds, rest) => some (some ds, rest)
    | _ => some (none, cs)
  match cs with
  | c :: rest =>
    if c = 'e' ∨ c = 'E' then
      let (exponent, rest) ← readExponent rest
      return (⟨fraction, some exponent⟩, rest)
    else return (⟨fraction, none⟩, cs)
  | [] => return (⟨fraction, none⟩, cs)

/-- The greatest exponent that is taken at its word; beyond it a number is zero or out of range. -/
def exponentLimit : Int := 2147483647

/-- The double that integer digits and a tail describe. Digits beyond 64 bits are cut: in the
integer part each of them raises the exponent, behind the point they count for nothing. -/
def decimalValue? (negative : Bool) (digits : List Nat) (tail : Tail) : Option Double :=
  let (whole, wholeCut) := appendDigits 0 digits
  let fraction := tail.fraction.getD []
  let (significand, fractionCut) := appendDigits whole fraction
  let place : Int := (wholeCut : Int) - (fraction.length - fractionCut : Nat)
  let exponent := tail.exponent.getD 0
  if exponentLimit < exponent.natAbs then
    if significand ≠ 0 ∧ 0 < exponent then none
    else some (if negative then .negZero else .zero)
  else Double.ofScientific? negative significand (place + exponent)

/-- The number that integer digits and a tail describe. -/
def toNumber? (negative : Bool) (digits : List Nat) (tail : Tail) : Option Number :=
  let magnitude : Nat := digits.foldl (fun acc d => acc * 10 + d) 0
  let value : Int := if negative then -magnitude else magnitude
  let isExact := tail.fraction.isNone && tail.exponent.isNone && !(negative && magnitude == 0)
  if isExact && (Word.fitsSigned value || Word.fitsUnsigned value) then some (.int value)
  else (decimalValue? negative digits tail).map .double

def readNumber (cs : List Char) : Option (Number × List Char) := do
  let (negative, cs) :=
    match cs with
    | '-' :: rest => (true, rest)
    | _ => (false, cs)
  match digitRun cs with
  | ([], _) => none
  | (0 :: _ :: _, _) => none
  | (digits, rest) =>
    let (tail, rest) ← readTail rest
    return (← toNumber? negative digits tail, rest)

/-! ## Values -/

/-- Reads items with commas between them and a closing character behind. The first argument bounds
the number of items. -/
def readItems {α : Type} (item : List Char → Option (α × List Char)) (close : Char) :
    Nat → List Char → Option (List α × List Char)
  | 0, _ => none
  | bound + 1, cs => do
    let (first, cs) ← item cs
    match skipSpace cs with
    | [] => none
    | c :: cs =>
      if c = close then return ([first], cs)
      else if c = ',' then
        let (others, cs) ← readItems item close bound cs
        return (first :: others, cs)
      else none

/-- Reads a possibly empty sequence behind its opening character. -/
def readSequence {α : Type} (item : List Char → Option (α × List Char)) (close : Char)
    (cs : List Char) : Option (List α × List Char) :=
  match skipSpace cs with
  | [] => none
  | c :: rest => if c = close then some ([], rest) else readItems item close cs.length (c :: rest)

/-- Reads a member of an object. -/
def readMember (value : List Char → Option (Json × List Char)) (cs : List Char) :
    Option ((String × Json) × List Char) :=
  match skipSpace cs with
  | '"' :: cs => do
    let (name, cs) ← readText cs
    match skipSpace cs with
    | ':' :: cs =>
      let (v, cs) ← value cs
      return ((String.ofList name, v), cs)
    | _ => none
  | _ => none

/-- Reads a value that may hold `levels` levels of arrays and objects. -/
def readValue : Nat → List Char → Option (Json × List Char)
  | levels, cs =>
    match skipSpace cs with
    | [] => none
    | '"' :: rest => (readText rest).map fun (s, rest) => (str (String.ofList s), rest)
    | '[' :: rest =>
      match levels with
      | 0 => none
      | levels + 1 =>
        (readSequence (readValue levels) ']' rest).map fun (items, rest) => (arr items, rest)
    | '\x7b' :: rest =>
      match levels with
      | 0 => none
      | levels + 1 =>
        (readSequence (readMember (readValue levels)) '\x7d' rest).map fun (members, rest) =>
          (obj (Table.ofList members), rest)
    | c :: rest =>
      if c = 'n' then (expect? "ull".toList rest).map fun rest => (null, rest)
      else if c = 't' then (expect? "rue".toList rest).map fun rest => (bool true, rest)
      else if c = 'f' then (expect? "alse".toList rest).map fun rest => (bool false, rest)
      else (readNumber (c :: rest)).map fun (n, rest) => (num n, rest)

/-- The value that a JSON text holds, if it is one value and nothing else. -/
def ofText? (text : String) : Option Json :=
  match readValue maxNesting text.toList with
  | some (value, rest) => if (skipSpace rest).isEmpty then some value else none
  | none => none

end RunTable.Json
