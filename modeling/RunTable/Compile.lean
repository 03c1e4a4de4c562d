import RunTable.Plan.MetricJoin
import RunTable.Plan.Needs
import RunTable.Plan.Paging
import RunTable.Request
import RunTable.Settings

/-!
# Compiling requests

A request becomes one pipeline over the runs. Its parts stand in a fixed order: the choice of a
single run, the fields to read, the derived columns, the filter, the cut of the page, the join, the
filter and the cut where they have to wait for the join, and last the stripping of what was only
needed on the way. What each part consists of was decided by the plans; here they are put together.

The filter waits if it looks at a metric column. Counting shows no fields, so a count selects none.
-/

namespace RunTable

/-- A pipeline and the collection that it runs over. -/
structure Compiled where
  mode : Mode
  collection : String
  stages : List Stage
  /-- Whether large sorts and groups may use the disk. -/
  allowDiskUse : Bool

namespace Request

/-- The fields that a request shows. -/
def selection (request : Request) (catalog : Catalog) : List String :=
  if request.mode = .count then [] else request.select.map catalog.resolve

/-- The fields that the filter of a request refers to. -/
def filterFields (request : Request) : NameSet :=
  request.filter.elim .empty Filter.referencedFields

/-- The field that a request sorts by; only pages are sorted. -/
def sortField (request : Request) (catalog : Catalog) : Option String :=
  if request.mode = .list then request.sortBy.map catalog.resolve else none

def needs (request : Request) (catalog : Catalog) : Needs :=
  .plan (request.selection catalog) request.filterFields (request.sortField catalog) catalog

/-- Whether the filter of a request waits for the join. -/
def filterDeferred (request : Request) (catalog : Catalog) : Bool :=
  request.filterFields.names.any catalog.isMetric

/-- The page size of a request: what it asks for, if that is not zero, or else the default, up to
the greatest allowed. -/
def pageSize (request : Request) (settings : Settings) : Nat :=
  settings.clampLimit ((request.limit.filter (0 < ·)).getD settings.defaultLimit)

/-- How the rows of a request are sorted and cut. -/
def paging (request : Request) (settings : Settings) (catalog : Catalog) : Paging :=
  let sortField := request.sortField catalog
  .plan sortField request.order request.skip (request.pageSize settings) {
    unpaginated := request.mode ≠ .list
    join := (request.needs catalog).join
    sortOnMetric := sortField.any catalog.isMetric
    filterDeferred := request.filterDeferred catalog }

/-- The stages before the join. -/
def rowStages (request : Request) (settings : Settings) (catalog : Catalog) (now : Instant) :
    List Stage :=
  let needs := request.needs catalog
  let single : List Stage :=
    match request.mode with
    | .single id => [.select (.single Field.id (.int id))]
    | _ => []
  single
    ++ needs.inclusionStage?.toList
    ++ (needs.derived.stage? now settings.deadAfterMillis).toList
    ++ (if request.filterDeferred catalog then [] else (request.filter.map Stage.select).toList)
    ++ (request.paging settings catalog).earlyStages

/-- The stages of the join, if there is one. -/
def joinStages (request : Request) (settings : Settings) (catalog : Catalog) : List Stage :=
  let needs := request.needs catalog
  if needs.join then
    MetricJoin.stages needs.metricColumns settings.metrics
      ++ (request.paging settings catalog).resortStage?.toList
  else []

/-- The stages behind the join. -/
def finalStages (request : Request) (settings : Settings) (catalog : Catalog) : List Stage :=
  let needs := request.needs catalog
  let helpers := if needs.join then MetricJoin.helperFields else []
  (if request.filterDeferred catalog then (request.filter.map Stage.select).toList else [])
    ++ (request.paging settings catalog).lateStages
    ++ (needs.stripStage? helpers).toList
    ++ (if request.mode = .count then [.count Field.count] else [])

/-- The pipeline of a request. The present is an argument, so equal requests have equal
pipelines. -/
def compile (request : Request) (settings : Settings) (catalog : Catalog) (now : Instant) :
    Compiled :=
  { mode := request.mode
    collection := settings.runs
    stages := request.rowStages settings catalog now
      ++ request.joinStages settings catalog
      ++ request.finalStages settings catalog
    allowDiskUse := settings.allowDiskUse }

end Request

end RunTable
