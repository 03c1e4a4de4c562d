import RunTable.Filter.Query
import RunTable.Request
import RunTable.Text.Split

/-!
# Request parameters

Parameters arrive as pairs of texts. Each value is trimmed, and blank values and unknown names are
passed over. A parameter that cannot be read refuses the request, even if a later pair of the same
name could be; of those that can be read, the last one counts.
-/

namespace RunTable

/-- The parameters of a request, validated. -/
structure Params where
  limit : Option Nat := none
  skip : Nat := 0
  sortBy : Option String := none
  order : Option Direction := none
  select : List String := []
  /-- The column whose values are wanted instead of runs, if given. -/
  distinct : Option String := none
  filter : Option Json := none

namespace Params

/-- The natural number that a parameter gives. -/
def natural (name value : String) : Except Error Nat :=
  match Numeral.unsigned? value with
  | some n => .ok n
  | none => .error (.parameter name (.notNatural value))

/-- The page size that a parameter gives: not zero. -/
def pageSize (name value : String) : Except Error Nat := do
  let n ← natural name value
  if n = 0 then throw (.parameter name .zero) else return n

/-- The direction that a parameter gives. -/
def direction (name value : String) : Except Error Direction :=
  match Numeral.signed? value with
  | some n => .ok (.ofSign n)
  | none => .error (.parameter name .notDirection)

/-- The columns of a list with commas between them. -/
def columns (value : String) : List String :=
  ((Text.split ',' value).map Text.trim).filter fun column => !column.isEmpty

/-- The parameters with one more, whose value is trimmed and not empty. -/
def set (params : Params) (name value : String) : Except Error Params := do
  match name with
  | "limit" => return { params with limit := some (← pageSize name value) }
  | "skip" => return { params with skip := ← natural name value }
  | "sort_by" => return { params with sortBy := some value }
  | "order_by" => return { params with order := some (← direction name value) }
  | "select" => return { params with select := columns value }
  | "distinct" => return { params with distinct := some value }
  | "query" => return { params with filter := ← Filter.ofText? value }
  | _ => return params

def add (params : Params) (pair : String × String) : Except Error Params :=
  let value := Text.trim pair.2
  if value.isEmpty then .ok params else params.set pair.1 value

/-- The parameters that some pairs give. -/
def ofPairs (pairs : List (String × String)) : Except Error Params := pairs.foldlM add {}

/-- The parameters with a filter; one that tests nothing is no filter. -/
def withFilter (params : Params) (filter : Json) : Params :=
  { params with filter := Filter.effective? filter }

/-- The request that parameters make. -/
def toRequest (params : Params) (mode : Mode) : Request :=
  { mode
    select := params.select
    filter := params.filter
    sortBy := params.sortBy
    order := params.order.getD .descending
    skip := params.skip
    limit := params.limit }

end Params

end RunTable
