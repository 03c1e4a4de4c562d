import RunTable.Expr.Eval
import RunTable.Json.Printer
import RunTable.Pipeline.Stage

/-!
# Grouping rows

Two rows belong together if their keys have the same compact text, so `1` and `1.0` make two groups
and so do objects whose members stand in another order. Groups stand in the order in which their
first rows came. Rows are taken one at a time, and a row is done with before the next one is looked
at.
-/

namespace RunTable

/-- A group while rows are added to it. -/
structure Bucket where
  key : Json
  /-- The compact text of the key. -/
  keyText : String
  /-- The value of each accumulator for the rows so far. -/
  cells : List Json

namespace Accumulator

/-- The value with which an accumulator starts at the first row of a group. -/
def start (row : Json) : Accumulator → Except EvalError Json
  | first value => value.eval row
  | push _ => .ok (.arr [])

/-- The values of some accumulators, carried on by one row. -/
def step (row : Json) : List (String × Accumulator) → List Json → Except EvalError (List Json)
  | (_, push value) :: fields, .arr items :: cells => do
    let v ← value.eval row
    return .arr (items ++ [v]) :: (← step row fields cells)
  | _ :: fields, cell :: cells => do return cell :: (← step row fields cells)
  | _, _ => .ok []

end Accumulator

namespace Bucket

/-- Adds a row to the group of its key, or to a new group behind the others. -/
def add (fields : List (String × Accumulator)) (key : Json) (keyText : String) (row : Json) :
    List Bucket → Except EvalError (List Bucket)
  | [] => do
    let cells ← fields.mapM fun field => field.2.start row
    return [⟨key, keyText, ← Accumulator.step row fields cells⟩]
  | bucket :: buckets =>
    if bucket.keyText = keyText then do
      return { bucket with cells := ← Accumulator.step row fields bucket.cells } :: buckets
    else do return bucket :: (← add fields key keyText row buckets)

/-- The row that a group becomes: its key and the values of its accumulators by name. -/
def toRow (fields : List (String × Accumulator)) (bucket : Bucket) : Json :=
  .obj (Table.ofList ((Field.id, bucket.key) :: (fields.map (·.1)).zip bucket.cells))

end Bucket

/-- The groups of some rows. -/
def groupRows (key : Expr) (fields : List (String × Accumulator)) (rows : List Json) :
    Except EvalError (List Json) := do
  let buckets ← rows.foldlM (fun buckets row => do
    let k ← key.eval row
    Bucket.add fields k k.text row buckets) []
  return buckets.map (Bucket.toRow fields)

end RunTable
