/-!
# Machine words

Stored integers have 64 bits, with or without a sign. Arithmetic is done on unbounded integers, and
a result is asked whether it fits.
-/

namespace RunTable.Word

/-- Whether an integer fits 64 bits with a sign. -/
def fitsSigned (n : Int) : Bool := decide (-9223372036854775808 ≤ n ∧ n ≤ 9223372036854775807)

/-- Whether an integer fits 64 bits without a sign. -/
def fitsUnsigned (n : Int) : Bool := decide (0 ≤ n ∧ n ≤ 18446744073709551615)

end RunTable.Word
