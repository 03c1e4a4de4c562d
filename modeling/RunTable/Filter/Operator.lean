import RunTable.Document
import RunTable.EvalError
import RunTable.Json.Order

/-!
# Operators of a filter

A condition on a field is tested against all values that a filter finds at the field's path, and it
holds if it holds for one of them. Comparisons are between values of one kind only. Null is special
in one respect: it equals a missing value, which is no value at all.
-/

namespace RunTable.Filter

/-- An operator that stands in place of a field and joins filters. -/
inductive Logical where
  | and
  | or
  | nor
deriving DecidableEq

def Logical.ofName? : String → Option Logical
  | "$and" => some and
  | "$or" => some or
  | "$nor" => some nor
  | _ => none

/-- A test of the values at a path against the operator's argument. -/
inductive Test where
  | equal
  | unequal
  | above
  /-- A value is the argument's equal in order, or above it. -/
  | atLeast
  | below
  /-- A value is the argument's equal in order, or below it. -/
  | atMost
  | oneOf
  | noneOf
  /-- There are values, or there are none, as the argument says. -/
  | present
  /-- The value is an array of the argument's length. -/
  | size
  /-- Each item of the argument equals a value. -/
  | hasAll
deriving DecidableEq

/-- An operator that stands behind a field. -/
inductive Operator where
  | not
  | someItem
  | test (t : Test)
deriving DecidableEq

def Operator.ofName? : String → Option Operator
  | "$eq" => some (test .equal)
  | "$ne" => some (test .unequal)
  | "$gt" => some (test .above)
  | "$gte" => some (test .atLeast)
  | "$lt" => some (test .below)
  | "$lte" => some (test .atMost)
  | "$in" => some (test .oneOf)
  | "$nin" => some (test .noneOf)
  | "$exists" => some (test .present)
  | "$size" => some (test .size)
  | "$all" => some (test .hasAll)
  | "$not" => some not
  | "$elemMatch" => some someItem
  | _ => none

/-- Whether one of the values equals a target; no values equal null. -/
def equalsAny (values : List Json) (target : Json) : Bool :=
  (target.isNull && values.isEmpty) || values.any fun value => value.equal target

/-- Whether one of the values is of the target's kind and stands to it in an accepted order. -/
def comparesAny (accepted : Ordering → Bool) (values : List Json) (target : Json) : Bool :=
  values.any fun value => value.sameKind target && accepted (value.cmp target)

/-- Whether one of the values equals an item of a list. -/
def equalsOneOf (operator : String) (values : List Json) : Json → Except EvalError Bool
  | .arr items => .ok (items.any (equalsAny values))
  | _ => .error (.notList operator)

/-- Whether a test holds for the values at a path. -/
def Test.holds (test : Test) (argument doc : Json) (path : String) : Except EvalError Bool :=
  let values := Document.candidates path doc
  match test with
  | equal => .ok (equalsAny values argument)
  | unequal => .ok (!equalsAny values argument)
  | above => .ok (comparesAny Ordering.isGT values argument)
  | atLeast => .ok (comparesAny Ordering.isGE values argument)
  | below => .ok (comparesAny Ordering.isLT values argument)
  | atMost => .ok (comparesAny Ordering.isLE values argument)
  | oneOf => equalsOneOf "$in" values argument
  | noneOf => (equalsOneOf "$nin" values argument).map (!·)
  | present => .ok (argument.truthy == !values.isEmpty)
  | size =>
    match Document.get? path doc, argument.nat64? with
    | some (.arr items), some length => .ok (items.length == length)
    | _, _ => .ok false
  | hasAll =>
    match argument with
    | .arr items => .ok (!items.isEmpty && items.all (equalsAny values))
    | _ => .error (.notList "$all")

end RunTable.Filter
