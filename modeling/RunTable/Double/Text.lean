import RunTable.Double.Shortest

/-!
# Doubles as text

Written, a double always shows that it is one: positional text has a point, and outside the range
from `0.00001` up to below `1e+16` the exponent form is used, with a sign on the exponent and
neither padding nor a `.0` in front of it.

Read, a decimal is its leading digits, as many as fit in 64 bits, made a double and then scaled by
one power of ten, each step rounded. That is the nearest double as long as digits and power are
exact, which is up to fifteen digits and a small exponent; beyond it the last place may be off.
-/

namespace RunTable.Double

/-! ## Writing -/

/-- The exponent of ten of the leading digit up to which numbers are written positionally. -/
def positionalBelow : Int := 16

/-- The exponent of ten of the leading digit from which numbers are written positionally. -/
def positionalFrom : Int := -5

/-- A point behind the first `n` digits, with zeros filled in where digits are missing. -/
def withPoint (digits : String) (n : Nat) : String :=
  if digits.length ≤ n then
    digits ++ String.ofList (List.replicate (n - digits.length) '0') ++ ".0"
  else String.ofList (digits.toList.take n) ++ "." ++ String.ofList (digits.toList.drop n)

/-- The text of a decimal without trailing zeros. -/
def Decimal.text (d : Decimal) : String :=
  let digits := Nat.repr d.digits
  -- the exponent of ten of the leading digit
  let leading := d.exponent + digits.length - 1
  if positionalFrom ≤ leading ∧ leading < positionalBelow then
    if leading < 0 then
      "0." ++ String.ofList (List.replicate (-leading - 1).toNat '0') ++ digits
    else withPoint digits (leading + 1).toNat
  else
    let mantissa := if digits.length = 1 then digits else withPoint digits 1
    let sign := if leading < 0 then "-" else "+"
    mantissa ++ "e" ++ sign ++ Nat.repr leading.natAbs

def text (x : Double) : String :=
  let magnitude := if x.isZero then "0.0" else x.toBinary.shortest.text
  if x.isNegative then "-" ++ magnitude else magnitude

/-! ## Reading -/

/-- A power of ten as a machine number. -/
def powerOfTen (n : Nat) : Float := Float.ofScientific 1 false n

/-- Divides by `1e308` until the exponent is within reach or nothing is left of the value. -/
def descend : Nat → Float → Int → Float × Int
  | 0, x, exponent => (x, exponent)
  | steps + 1, x, exponent =>
    if exponent < -308 && x != 0 then descend steps (x / powerOfTen 308) (exponent + 308)
    else (x, exponent)

/-- The double of `significand * 10 ^ exponent`; none beyond the finite range. -/
def ofScientific? (negative : Bool) (significand : Nat) (exponent : Int) : Option Double := do
  let start := (ofNat significand).toFloat
  let magnitude ←
    if 308 < exponent then if significand = 0 then some zero else none
    else
      let (x, rest) := descend exponent.natAbs start exponent
      if 0 ≤ rest then ofFloat? (x * powerOfTen rest.toNat)
      else if rest < -308 then some zero
      else ofFloat? (x / powerOfTen rest.natAbs)
  return if negative then magnitude.neg else magnitude

end RunTable.Double
