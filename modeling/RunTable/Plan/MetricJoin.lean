import RunTable.Column
import RunTable.Field
import RunTable.NameSet
import RunTable.Pipeline.Stage

/-!
# Joining metric series

A run refers to its metric series by identifier and name. The join makes a row of each reference to
a wanted series, looks the series up, gathers the rows of each run again into a table from names to
series, and reduces the series to the values of the columns. A run without such references goes
through as one row whose reference is missing; its entry gets a name that no column asks for.
-/

namespace RunTable.MetricJoin

/-- The field for the references to wanted series, and then for one of them. -/
def refField : String := "__metric_ref"

/-- The field for what a reference refers to: a list of one series, or of none. -/
def hitsField : String := "__metric"

/-- The field for a run while its rows are gathered. -/
def runField : String := "__run"

/-- The field for the names and series of a run. -/
def entriesField : String := "__metric_entries"

/-- The field for the table of a run's series, which stays until rows are stripped. -/
def tableField : String := "__metrics"

/-- The name for the entry of a reference that finds nothing. -/
def unmatchedName : String := "__unmatched"

/-- The fields that a join leaves behind. -/
def helperFields : List String := [tableField]

def reduce (reduction : Reduction) (window : Int) (values : Expr) : Expr :=
  match reduction with
  | .least => .unary .least values
  | .greatest => .unary .greatest values
  | .mean => .unary .mean values
  | .last =>
    let length := .unary .size (.ifNull values (.literal (.arr [])))
    .cond (.above length (.literal (.int 0))) (.unary (.elementAt (-1)) values) .null
  | .recentMean => .unary .mean (.unary (.slice (-window)) values)

/-- The value of a column, from the table of a run's series. -/
def columnExpr (column : MetricColumn) : Expr :=
  let series := .member column.series (.field tableField)
  reduce column.reduction column.window (.member "values" series)

/-- The names of the series that some columns reduce. -/
def seriesNames (columns : List MetricColumn) : NameSet := .ofList (columns.map (·.series))

/-- The series that a reference refers to, null if there is none. -/
def hit : Expr := .unary (.elementAt 0) (.field hitsField)

/-- The entry of a reference in the table of a run's series. -/
def entry : Expr :=
  .object [("k", .ifNull (.member "name" hit) (.str unmatchedName)), ("v", hit)]

/-- The stages that give each run the table of its wanted series. -/
def tableStages (names : List String) (collection : String) : List Stage :=
  [
    .compute [(refField, .unary (.withMember "name" (names.map .str)) (.field Field.metricRefs))],
    .unwind refField true,
    .lookup {
      collection
      localPath := refField ++ ".id"
      foreignPath := Field.id
      restriction := some ("name", names)
      target := hitsField },
    .group (.field Field.id) [(runField, .first .root), (entriesField, .push entry)],
    .replaceRoot (.merge [
      .field runField,
      .object [(tableField, .unary .toObject (.field entriesField))]]),
    .project (.drop (.ofList [refField, hitsField]))]

/-- The stage that computes the columns from the table of a run's series. -/
def columnStage (columns : List MetricColumn) : Stage :=
  .compute (columns.map fun column => (column.name, columnExpr column))

/-- The stages of a join for some columns. -/
def stages (columns : List MetricColumn) (collection : String) : List Stage :=
  tableStages (seriesNames columns).names collection ++ [columnStage columns]

end RunTable.MetricJoin
