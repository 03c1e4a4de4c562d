import RunTable.Catalog
import RunTable.Plan.Derived
import RunTable.Plan.FieldSets

/-!
# What a request needs

A request refers to fields by its selection, its filter and its sort. From these follow the fields
to read, the metric columns to join and the columns to derive. What a join or a derived column reads
is forced as well, last of all.
-/

namespace RunTable

/-- What has to be read and computed for a request. -/
@[ext]
structure Needs where
  fields : FieldSets
  metricColumns : List MetricColumn
  derived : Derived

namespace Needs

/-- What a selection, the fields of a filter and a sort field need. -/
def plan (selection : List String) (filterFields : NameSet) (sortField : Option String)
    (catalog : Catalog) : Needs :=
  let wanted := filterFields.names ++ sortField.toList
  let isReferenced := fun name => selection.contains name || wanted.contains name
  let metricColumns := catalog.metricColumns.filter fun column => isReferenced column.name
  let derived : Derived :=
    { duration := isReferenced Field.duration, status := isReferenced Field.status }
  let forced := wanted
    ++ (if metricColumns.isEmpty then [] else [Field.metricRefs])
    ++ (if derived.any then [Field.startTime, Field.heartbeat] else [])
  { fields := forced.foldl FieldSets.force (.ofSelection selection), metricColumns, derived }

def join (needs : Needs) : Bool := !needs.metricColumns.isEmpty

/-- The stage that reads only the needed fields, if fields were selected. -/
def inclusionStage? (needs : Needs) : Option Stage :=
  if needs.fields.isExplicit then some (.project (.keep needs.fields.included)) else none

/-- The stage that strips what was read or added only on the way, if there is anything. -/
def stripStage? (needs : Needs) (helpers : List String) : Option Stage :=
  let paths := needs.fields.stripPaths.insertAll helpers
  if paths.isEmpty then none else some (.project (.drop paths))

end Needs

end RunTable
