import RunTable.Field
import RunTable.Pipeline.Stage

/-!
# Where rows are sorted and cut

Joining metric series costs time for each row, so a page is cut before the join where that gives the
same rows: where neither the sort nor the filter looks at a joined column. Since a join may change
the order of rows, the page is then sorted again behind it.

The identifier is always the last sort key, so that pages are well defined where the wanted key
leaves rows level.
-/

namespace RunTable

/-- Where a page is cut. -/
inductive Placement where
  | early
  /-- Behind the join and a filter that waits for it. -/
  | late
  /-- Nowhere: the request is not for a page. -/
  | omitted
deriving DecidableEq

/-- What the place of the cut depends on. -/
structure PagingContext where
  /-- The request is not for a page. -/
  unpaginated : Bool := false
  join : Bool := false
  sortOnMetric : Bool := false
  /-- The filter looks at a metric column and waits for the join. -/
  filterDeferred : Bool := false

/-- How the rows of a request are sorted and cut. -/
structure Paging where
  spec : SortSpec
  placement : Placement
  skip : Nat
  limit : Nat
  /-- Whether the page is sorted again behind a join. -/
  resort : Bool

namespace Paging

def place (context : PagingContext) : Placement :=
  if context.unpaginated then .omitted
  else if context.sortOnMetric || context.filterDeferred then .late
  else .early

/-- Sorts by a field, or by the identifier if there is none, and cuts a page. -/
def plan (sortField : Option String) (direction : Direction) (skip limit : Nat)
    (context : PagingContext) : Paging :=
  let placement := place context
  { spec := ({ primary := sortField.getD Field.id, direction } : SortSpec).thenBy Field.id direction
    placement, skip, limit
    resort := placement == .early && context.join }

/-- The stages that sort rows and cut a page. -/
def cutStages (paging : Paging) : List Stage :=
  let skip : List Stage := if 0 < paging.skip then [.skip paging.skip] else []
  .sort paging.spec :: skip ++ [.limit paging.limit]

def earlyStages (paging : Paging) : List Stage :=
  if paging.placement = .early then paging.cutStages else []

/-- The stage right behind a join, if any. -/
def resortStage? (paging : Paging) : Option Stage :=
  if paging.resort then some (.sort paging.spec) else none

/-- The stages behind a join and a filter that waits for it. -/
def lateStages (paging : Paging) : List Stage :=
  if paging.placement = .late then paging.cutStages else []

end Paging

end RunTable
