import RunTable.EvalError
import RunTable.Expr.Basic
import RunTable.Instant.Text
import RunTable.Json.Order
import RunTable.Table

/-!
# Strict operators on values

Null stands for a missing value and most operators pass it on. Where numbers are wanted, what is not
a number is left out, so a column of mixed values still has a least and a mean. A difference is
exact between integers of 64 bits as long as it fits, then a double, and between instants it counts
milliseconds.
-/

namespace RunTable

namespace Json

/-- The instant that a text value describes. -/
def instant? (value : Json) : Option Instant := value.str?.bind Instant.ofText?

/-- The difference of two integers of 64 bits, if it is one. -/
def exactDifference? (left right : Json) : Option Int := do
  let difference := (← left.int64?) - (← right.int64?)
  if Word.fitsSigned difference then some difference else none

/-- The difference of two values: null if one is null, else of integers, of numbers, of instants, or
the instant so many milliseconds earlier. -/
def subtract (left right : Json) : Except EvalError Json :=
  if left.isNull || right.isNull then .ok null
  else
    match exactDifference? left right, left.toDouble?, right.toDouble? with
    | some difference, _, _ => .ok (int difference)
    | none, some x, some y => .ok (ofDouble? (x.sub? y))
    | none, _, _ =>
      match left.instant?, right.instant?, right.int64? with
      | some a, some b, _ => .ok (int (a.millisSince b))
      | some a, none, some millis => .ok (str (a.earlier millis).text)
      | _, _, _ => .error (.noDifference left right)

/-- The item at a position, counted from the end when negative. -/
def elementAt? (items : List Json) (index : Int) : Option Json :=
  if 0 ≤ index then items[index.toNat]?
  else if index.natAbs ≤ items.length then items[items.length - index.natAbs]?
  else none

/-- The first `count` items, or the last when the count is negative. -/
def slice (items : List Json) (count : Int) : List Json :=
  if 0 ≤ count then items.take count.natAbs else items.drop (items.length - count.natAbs)

/-- The numbers among the items of an array; a number alone counts as an array of one. -/
def numbers : Json → List Json
  | arr items => items.filter isNumber
  | num n => [num n]
  | _ => []

/-- The first value that no other one is better than, null if there are none. -/
def best (better : Json → Json → Bool) : List Json → Json
  | [] => null
  | first :: others =>
    others.foldl (fun kept value => if better value kept then value else kept) first

/-- The mean of numbers, null if there are none or it is not finite. -/
def mean (values : List Json) : Json := ofDouble? (Double.mean? (values.filterMap toDouble?))

/-- The name and value of an entry: an object with members `k` and `v`, or an array of the two. A
missing value is null. -/
def entry? : Json → Except EvalError (String × Json)
  | obj members =>
    match members.lookup "k" with
    | some (str name) => .ok (name, (members.lookup "v").getD null)
    | _ => .error .badEntryKey
  | arr [str name, value] => .ok (name, value)
  | arr [_, _] => .error .badEntryKey
  | other => .error (.badEntry other)

/-- The objects among some items that have a member equal to one of some values. -/
def withMember (name : String) (values items : List Json) : List Json :=
  items.filter fun item => (item.member? name).any fun value => values.any (equal value)

end Json

open Json in
def Unary.apply : Unary → Json → Except EvalError Json
  | size, .arr items => .ok (nat items.length)
  | size, other => .error (.notArray "$size" other)
  | elementAt _, .null => .ok .null
  | elementAt index, .arr items => .ok ((elementAt? items index).getD .null)
  | elementAt _, other => .error (.notArray "$arrayElemAt" other)
  | slice _, .null => .ok .null
  | slice count, .arr items => .ok (.arr (Json.slice items count))
  | slice _, other => .error (.notArray "$slice" other)
  | least, value => .ok (best (fun a b => cmp a b == .lt) (numbers value))
  | greatest, value => .ok (best (fun a b => cmp a b == .gt) (numbers value))
  | mean, value => .ok (Json.mean (numbers value))
  | member name, value => .ok ((value.member? name).getD .null)
  | toObject, .null => .ok .null
  | toObject, .arr entries => do return .obj (Table.ofList (← entries.mapM entry?))
  | toObject, other => .error (.notArray "$arrayToObject" other)
  | withMember name values, .arr items => .ok (.arr (Json.withMember name values items))
  | withMember _ _, _ => .ok .null

def Binary.apply : Binary → Json → Json → Except EvalError Json
  | subtract, left, right => left.subtract right
  | equal, left, right => .ok (.bool (Json.equal left right))
  | above, left, right => .ok (.bool (Json.cmp left right == .gt))

end RunTable
