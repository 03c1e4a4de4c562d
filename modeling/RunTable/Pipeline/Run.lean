import RunTable.Filter.Match
import RunTable.Pipeline.Group

/-!
# Running a pipeline

Each stage is a function on the list of all rows, and a pipeline is their composition. A stage fails
as a whole at its first row that fails, and what comes behind a failed stage is never run.
-/

namespace RunTable

abbrev Collections := String → List Json

def selectRows (filter : Json) : List Json → Except EvalError (List Json)
  | [] => .ok []
  | row :: rows => do
    if ← Filter.holds filter row then return row :: (← selectRows filter rows)
    else selectRows filter rows

/-- The row with computed values written into it. All are computed from the row as it came. -/
def computeFields (fields : List (String × Expr)) (row : Json) : Except EvalError Json := do
  let computed ← Expr.evalFields fields row
  return computed.foldl (fun doc (path, value) => Document.set path value doc) row

/-- The rows that a row becomes, one for each item of an array. A value that is no array counts as
its own single item, a missing or null value as an empty array. -/
def unwindRow (path : String) (keepEmpty : Bool) (row : Json) : List Json :=
  match Document.get? path row with
  | some (.arr []) => if keepEmpty then [Document.remove path row] else []
  | some (.arr items) => items.map fun item => Document.set path item row
  | none => if keepEmpty then [row] else []
  | some .null => if keepEmpty then [row] else []
  | some _ => [row]

namespace Lookup

/-- Whether a foreign document is one that a reference asks for. -/
def accepts (join : Lookup) (reference foreign : Json) : Bool :=
  (Document.get? join.foreignPath foreign).any (Json.equal · reference)
    && join.restriction.all fun (path, accepted) =>
      ((Document.get? path foreign).bind Json.str?).any accepted.contains

/-- The foreign documents that a row refers to; a missing or null reference asks for none. -/
def hits (join : Lookup) (foreign : List Json) (row : Json) : List Json :=
  match Document.getOrNull join.localPath row with
  | .null => []
  | reference => foreign.filter (join.accepts reference)

/-- A row with the foreign documents that it refers to. -/
def apply (join : Lookup) (foreign : List Json) (row : Json) : Json :=
  Document.set join.target (.arr (join.hits foreign row)) row

end Lookup

def replaceRow (value : Expr) (row : Json) : Except EvalError Json := do
  match ← value.eval row with
  | .obj members => return .obj members
  | other => throw (.badRoot other)

def Stage.apply (collections : Collections) : Stage → List Json → Except EvalError (List Json)
  | select filter, rows => selectRows filter rows
  | project projection, rows => .ok (rows.map projection.apply)
  | compute fields, rows => rows.mapM (computeFields fields)
  | sort spec, rows => .ok (spec.sort rows)
  | skip n, rows => .ok (rows.drop n)
  | limit n, rows => .ok (rows.take n)
  | unwind path keepEmpty, rows => .ok (rows.flatMap (unwindRow path keepEmpty))
  | lookup join, rows => .ok (rows.map (join.apply (collections join.collection)))
  | group key fields, rows => groupRows key fields rows
  | replaceRoot value, rows => rows.mapM (replaceRow value)
  | count _, [] => .ok []
  | count field, rows => .ok [.single field (.nat rows.length)]

def Pipeline.run (collections : Collections) (stages : List Stage) (rows : List Json) :
    Except EvalError (List Json) :=
  stages.foldlM (fun rows stage => stage.apply collections rows) rows

theorem Pipeline.run_append (collections : Collections) (first second : List Stage)
    (rows : List Json) : run collections (first ++ second) rows
      = (run collections first rows >>= run collections second) := by
  simp only [run, List.foldlM_append]; rfl

end RunTable
