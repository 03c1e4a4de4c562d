/-!
# Finite doubles

JSON has no infinities and no not-a-number, so a double here is a finite binary64 value, kept as
its 64 bits. Two doubles are equal when their bits are, which tells `0.0` from `-0.0`; the numeric
order does not, and it is stated through `Double.key`, an integer that grows with the value. With
the order reduced to integers, no fact about machine arithmetic is needed to know that it is total.

Arithmetic goes through the machine operations and may leave the finite range, so its results are
optional.
-/

namespace RunTable

/-- What separates the fraction field of the bits from the exponent field: two to the 52. -/
def Double.fractionBound : Nat := 0x10000000000000

/-- How many values the exponent field has: two to the 11. -/
def Double.exponentBound : Nat := 0x800

/-- What separates the sign from the other bits: two to the 63. -/
def Double.signBound : Nat := 0x8000000000000000

/-- A finite binary64 value by its bits. -/
structure Double where
  /-- Sign, exponent and fraction, from the most significant bit down. -/
  bits : UInt64
  /-- The exponent field is not the one reserved for infinities and not-a-number. -/
  finite : bits.toNat / Double.fractionBound % Double.exponentBound ≠ 2047 := by decide
deriving DecidableEq

namespace Double

/-- The value with these bits, if it is finite. -/
def ofBits? (bits : UInt64) : Option Double :=
  if h : bits.toNat / fractionBound % exponentBound ≠ 2047 then some ⟨bits, h⟩ else none

def zero : Double := { bits := 0 }

def negZero : Double := { bits := 0x8000000000000000 }

def largest : Double := { bits := 0x7FEFFFFFFFFFFFFF }

instance : Inhabited Double := ⟨zero⟩

/-- The exponent and fraction fields together: the rank of the magnitude. -/
def rank (x : Double) : Nat := x.bits.toNat % signBound

/-- Whether the sign bit is set. -/
def isNegative (x : Double) : Bool := decide (signBound ≤ x.bits.toNat)

/-- An integer that orders doubles by value. Both zeros have key zero. -/
def key (x : Double) : Int := if x.isNegative then -(x.rank : Int) else x.rank

instance : Ord Double := ⟨fun x y => compare x.key y.key⟩

/-- Whether the value is zero, of either sign. -/
def isZero (x : Double) : Bool := x.rank == 0

/-- The value with the other sign. -/
def neg (x : Double) : Double := (ofBits? (x.bits ^^^ 0x8000000000000000)).getD x

def toFloat (x : Double) : Float := Float.ofBits x.bits

/-- The finite value of a machine number, if it has one. -/
def ofFloat? (x : Float) : Option Double := ofBits? x.toBits

/-- The natural number that keeps the leading 53 bits of `n`, rounded to nearest with ties to even,
as a significand below or at `2 ^ 53` and the number of bits cut off. -/
def leading53 (n : Nat) : Nat × Nat :=
  let cut := n.log2 - 52
  let unit := Nat.pow 2 cut
  let kept := n / unit
  let twiceRest := 2 * (n % unit)
  if twiceRest > unit ∨ (twiceRest = unit ∧ kept % 2 = 1) then (kept + 1, cut)
  else (kept, cut)

/-- The double nearest to a natural number, ties to even; the greatest finite value beyond the
range. -/
def ofNat (n : Nat) : Double :=
  if n = 0 then zero
  else if 1023 < n.log2 then largest
  else if n.log2 < 53 then
    -- exact: the leading bit moves to place 52 and becomes the hidden one
    let shift := 52 - n.log2
    (ofBits? (UInt64.ofNat ((n.log2 + 1022) * fractionBound + n * Nat.pow 2 shift))).getD largest
  else
    -- a carry out of the significand lands in the exponent field, where it belongs
    let (kept, cut) := leading53 n
    (ofBits? (UInt64.ofNat ((cut + 1074) * fractionBound + kept))).getD largest

/-- The double nearest to an integer, ties to even. -/
def ofInt : Int → Double
  | .ofNat n => ofNat n
  | .negSucc n => (ofNat (n + 1)).neg

/-- The difference, if it is finite. -/
def sub? (x y : Double) : Option Double := ofFloat? (x.toFloat - y.toFloat)

/-- The sum from left to right. It starts at negative zero, the neutral element of addition: a sum
of negative zeros keeps its sign. -/
def sum (xs : List Double) : Float :=
  xs.foldl (fun acc x => acc + x.toFloat) negZero.toFloat

/-- The mean of a list; none for the empty list and for a mean that is not finite. -/
def mean? : List Double → Option Double
  | [] => none
  | xs => ofFloat? (sum xs / (ofNat xs.length).toFloat)

theorem key_zero : zero.key = 0 := by decide

theorem key_negZero : negZero.key = 0 := by decide

end Double

end RunTable
