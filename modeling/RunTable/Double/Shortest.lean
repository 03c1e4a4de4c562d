import RunTable.Double.Basic

/-!
# The shortest decimal that reads back

A double stands for an interval of reals: all those that are nearer to it than to its neighbours,
ends included when its significand is even. Among the decimals in that interval the shortest is
written, and of several shortest the one nearest to the value, on an exact tie the even one.

The search is that sentence as a loop. For one digit, two digits and so on it takes the two
neighbours of the value on the decimal grid of that many digits and tests them against the interval
in exact integer arithmetic. If any point of a grid lies in the interval, one of the two does, so
the first grid with a hit is the coarsest.
-/

namespace RunTable.Double

/-- A positive binary number, `significand * 2 ^ exponent`. -/
structure Binary where
  significand : Nat
  /-- The power of two it is scaled by. -/
  exponent : Int
  /-- The gap to the value below is half the gap to the value above. -/
  narrowBelow : Bool

/-- A decimal number, `digits * 10 ^ exponent`. -/
structure Decimal where
  /-- The integer made of the digits. -/
  digits : Nat
  /-- The power of ten it is scaled by. -/
  exponent : Int
deriving DecidableEq

/-- The magnitude of a double as a binary number. -/
def toBinary (x : Double) : Binary :=
  let field : Nat := x.rank / fractionBound
  let fraction : Nat := x.rank % fractionBound
  if field = 0 then ⟨fraction, -1074, false⟩
  else ⟨fractionBound + fraction, (field : Int) - 1075, fraction == 0 && field > 1⟩

namespace Binary

/-- Quarters of the significand unit brought to the grid `10 ^ place` as a numerator over
`denominator`. -/
def numerator (x : Binary) (quarters : Nat) (place : Int) : Nat :=
  quarters * Nat.pow 2 x.exponent.toNat * Nat.pow 10 (-place).toNat

/-- The denominator that goes with `numerator`, for quarters. -/
def denominator (x : Binary) (place : Int) : Nat :=
  4 * Nat.pow 2 (-x.exponent).toNat * Nat.pow 10 place.toNat

/-- Whether `point * 10 ^ place` lies among the reals that round to the value. -/
def readsBack (x : Binary) (point : Nat) (place : Int) : Bool :=
  let low := x.numerator (4 * x.significand - if x.narrowBelow then 1 else 2) place
  let high := x.numerator (4 * x.significand + 2) place
  let here := point * x.denominator place
  if x.significand % 2 = 0 then low ≤ here && here ≤ high else low < here && here < high

/-- The number of decimal digits in front of the point, negative when zeros follow it: the least
`k` with the value below `10 ^ k`. -/
def scale (x : Binary) : Int :=
  -- ten to the 324 lifts the least double above one, so cutting the fraction moves no digit
  let lifted := x.numerator (4 * x.significand) (-324) / x.denominator (-324)
  ((Nat.repr lifted).length : Int) - 324

/-- The grid point nearest to the value among its two neighbours that read back, if one does. -/
def onGrid? (x : Binary) (place : Int) : Option Nat :=
  let value := x.numerator (4 * x.significand) place
  let unit := x.denominator place
  let below := value / unit
  let above := below + 1
  match x.readsBack below place, x.readsBack above place with
  | false, false => none
  | true, false => some below
  | false, true => some above
  | true, true =>
    match compare (2 * value) ((below + above) * unit) with
    | .lt => some below
    | .gt => some above
    | .eq => some (if below % 2 = 0 then below else above)

end Binary

/-- Moves trailing zeros of the digits into the exponent. -/
def Decimal.strip : Nat → Decimal → Decimal
  | 0, d => d
  | fuel + 1, d =>
    if d.digits % 10 = 0 ∧ d.digits ≠ 0 then Decimal.strip fuel ⟨d.digits / 10, d.exponent + 1⟩
    else d

/-- The shortest decimal of a positive binary number. Seventeen digits always suffice; the exact
value stands behind them so that no digit is ever guessed. -/
def Binary.shortest (x : Binary) : Decimal :=
  let scale := x.scale
  let found := (List.range 17).findSome? fun n =>
    let place := scale - (n + 1 : Nat)
    (x.onGrid? place).map fun point => Decimal.mk point place
  match found with
  | some d => Decimal.strip 20 d
  | none => ⟨x.numerator (4 * x.significand) (-1074) / x.denominator (-1074), -1074⟩

end RunTable.Double
