import RunTable.Field
import RunTable.Json.Basic
import RunTable.Request

/-!
# Responses

The rows of a pipeline are shaped to the request: a page shows them all, a single run is the first
of them, and a count is what the one row of a counting pipeline says. No row means that nothing was
counted.
-/

namespace RunTable

inductive Response where
  /-- A run, if there is one. -/
  | document (doc : Option Json)
  | page (rows : List Json)
  | count (n : Nat)
  /-- The values that a column takes. -/
  | distinct (values : List Json)

namespace Response

/-- The response to a request of which these rows are the result. -/
def ofRows (mode : Mode) (rows : List Json) : Response :=
  match mode with
  | .list => page rows
  | .single _ => document rows.head?
  | .count => count (((rows.head?.bind (Json.member? Field.count)).bind Json.nat64?).getD 0)

def body : Response → Json
  | document doc => doc.getD .null
  | page rows => .arr rows
  | count n => .single Field.count (.nat n)
  | distinct values => .arr values

/-- How many documents or values a response holds; a count is one. -/
def rowCount : Response → Nat
  | document doc => doc.toList.length
  | page rows => rows.length
  | count _ => 1
  | distinct values => values.length

end Response

end RunTable
