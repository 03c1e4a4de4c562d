import RunTable.Word

/-!
# Integer numerals

Numerals in requests and in paths are decimal digits behind an optional sign. Leading zeros are
allowed, blanks and separators are not, and a numeral outside the word it is read for is refused
rather than wrapped. A minus sign belongs to signed numerals only, so an unsigned `-0` is refused.
-/

namespace RunTable.Numeral

def digit? (c : Char) : Option Nat :=
  if '0' ≤ c ∧ c ≤ '9' then some (c.toNat - '0'.toNat) else none

/-- The value of digits behind those already read into `acc`. -/
def digits? (acc : Nat) : List Char → Option Nat
  | [] => some acc
  | c :: rest =>
    match digit? c with
    | some d => digits? (10 * acc + d) rest
    | none => none

def magnitude? : List Char → Option Nat
  | [] => none
  | cs => digits? 0 cs

/-- Reads an unsigned numeral of 64 bits; a plus sign may stand in front. -/
def unsigned? (text : String) : Option Nat :=
  let magnitude :=
    match text.toList with
    | '+' :: rest => magnitude? rest
    | cs => magnitude? cs
  magnitude.filter fun n => Word.fitsUnsigned n

/-- Reads a signed numeral of 64 bits. -/
def signed? (text : String) : Option Int :=
  let value : Option Int :=
    match text.toList with
    | '+' :: rest => (magnitude? rest).map fun n => n
    | '-' :: rest => (magnitude? rest).map fun n => -n
    | cs => (magnitude? cs).map fun n => n
  value.filter Word.fitsSigned

/-- Decimal digits of at least the given width, filled with zeros in front. -/
def padded (width n : Nat) : String :=
  let digits := Nat.repr n
  String.ofList (List.replicate (width - digits.length) '0') ++ digits

end RunTable.Numeral
