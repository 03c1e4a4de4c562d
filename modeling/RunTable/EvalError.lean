import RunTable.Json.Printer

/-!
# Why an evaluation fails

Each cause carries the value or the name that is at fault, and the wording is decided in one place.
A cause that comes from a collection's own storage is only a description.
-/

namespace RunTable

/-- A cause for which an expression, a filter or a stage has no result. -/
inductive EvalError where
  /-- An operator on arrays met another value. -/
  | notArray (operator : String) (got : Json)
  /-- A merge met something that is neither an object nor null. -/
  | mergedNonObject (got : Json)
  /-- An entry that is neither an object nor a pair. -/
  | badEntry (got : Json)
  | badEntryKey
  /-- A difference of values that have none. -/
  | noDifference (left right : Json)
  | badRoot (got : Json)
  | badFilter (got : Json)
  | noTerms (operator : String)
  /-- An operator whose argument has to be an array. -/
  | notList (operator : String)
  /-- An operator that does not exist in place of a field. -/
  | unknownLogical (operator : String)
  /-- An operator that does not exist behind a field. -/
  | unknownOperator (operator : String)
  /-- A failure of the storage itself. -/
  | storage (description : String)

namespace EvalError

def message : EvalError → String
  | notArray operator got => operator ++ " requires an array, got " ++ got.text
  | mergedNonObject got => "$mergeObjects requires objects, got " ++ got.text
  | badEntry got =>
    "$arrayToObject entries must be \x7bk, v\x7d or [k, v], got " ++ got.text
  | badEntryKey => "$arrayToObject keys must be strings"
  | noDifference left right => "cannot $subtract " ++ right.text ++ " from " ++ left.text
  | badRoot got => "$replaceRoot requires an object, got " ++ got.text
  | badFilter got => "match filter must be an object, got " ++ got.text
  | noTerms operator => operator ++ " requires a non-empty array"
  | notList operator => operator ++ " requires an array"
  | unknownLogical operator => "unsupported top-level operator " ++ operator
  | unknownOperator operator => "unsupported operator " ++ operator
  | storage description => description

end EvalError

end RunTable
