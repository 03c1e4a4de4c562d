import RunTable.Expr.Basic
import RunTable.Pipeline.Projection
import RunTable.Pipeline.Sort

/-!
# Stages

A pipeline is a list of stages, and a stage turns rows into rows. Only a join reads anything but the
rows that it is given.
-/

namespace RunTable

/-- A join with another collection: a row gets the foreign documents that one of its values refers
to. -/
structure Lookup where
  collection : String
  localPath : String
  /-- The path in a foreign document whose value has to equal the reference. -/
  foreignPath : String
  /-- A path in a foreign document whose value has to be one of some texts. -/
  restriction : Option (String × List String)
  target : String

/-- What a group computes from its rows. -/
inductive Accumulator where
  /-- The value for the first row. -/
  | first (value : Expr)
  /-- The values for all rows, in order. -/
  | push (value : Expr)

/-- One step of a pipeline. -/
inductive Stage where
  | select (filter : Json)
  | project (projection : Projection)
  | compute (fields : List (String × Expr))
  | sort (spec : SortSpec)
  | skip (count : Nat)
  | limit (count : Nat)
  /-- Makes one row for each item of an array; a row without items is kept or dropped. -/
  | unwind (path : String) (keepEmpty : Bool)
  | lookup (join : Lookup)
  /-- Makes one row for each value of a key. -/
  | group (key : Expr) (fields : List (String × Accumulator))
  | replaceRoot (value : Expr)
  /-- Makes one row that tells how many there were, or none if there were none. -/
  | count (field : String)

end RunTable
