import RunTable.Filter.Match
import RunTable.Pipeline.Sort

/-!
# Requests

A request says which runs of the table are wanted and what of them. Columns are named as they are
shown; what they stand for is looked up when the request is compiled.
-/

namespace RunTable

/-- What a request asks for. -/
inductive Mode where
  | list
  /-- The run of a number. -/
  | single (id : Int)
  | count
deriving DecidableEq

/-- A request for runs. -/
structure Request where
  mode : Mode := .list
  /-- The columns to show; none means everything. -/
  select : List String := []
  filter : Option Json := none
  sortBy : Option String := none
  order : Direction := .descending
  skip : Nat := 0
  /-- How many runs a page has at most, if that is said. -/
  limit : Option Nat := none

/-- A request with a filter; one that tests nothing is no filter. -/
def Request.withFilter (request : Request) (filter : Json) : Request :=
  { request with filter := Filter.effective? filter }

end RunTable
