import RunTable.Json.Decode

/-!
# Columns that users define

A metric column shows one number for each run, reduced from a series of the run. A custom column
shows the value at a path of the run's document under a shorter name.
-/

namespace RunTable

/-- How a series is reduced to one value. -/
inductive Reduction where
  | least
  | greatest
  | mean
  | last
  /-- The mean of the last few values. -/
  | recentMean
deriving DecidableEq

namespace Reduction

/-- All reductions, in the order in which they are offered. -/
def all : List Reduction := [least, greatest, mean, last, recentMean]

/-- The name under which a reduction is stored. -/
def name : Reduction → String
  | least => "min"
  | greatest => "max"
  | mean => "avg"
  | last => "last"
  | recentMean => "last_n_avg"

def ofName? (name : String) : Option Reduction := all.find? fun reduction => reduction.name == name

def ofJson? (value : Json) : Option Reduction := (Decode.alternative? value).bind ofName?

theorem ofName?_name (reduction : Reduction) : ofName? reduction.name = some reduction := by
  cases reduction <;> decide

end Reduction

/-- A column that shows a series of each run reduced to one value. -/
structure MetricColumn where
  name : String
  series : String
  reduction : Reduction
  /-- How many values a mean of the last few takes, if that was said. -/
  lastN : Option Int := none
deriving DecidableEq

namespace MetricColumn

/-- How many values a mean of the last few takes: at least one. -/
def window (column : MetricColumn) : Int := max 1 (column.lastN.getD 1)

def ofJson? (value : Json) : Option MetricColumn :=
  match Decode.fields? ["name", "metric_name", "extrema", "lastn"] value with
  | some [name, series, reduction, lastN] => do
    return {
      name := ← Decode.required Json.str? name
      series := ← Decode.required Json.str? series
      reduction := ← Decode.required Reduction.ofJson? reduction
      lastN := ← Decode.optional Json.int64? lastN }
  | _ => none

def toJson (column : MetricColumn) : Json :=
  .obj ([
    ("name", .str column.name),
    ("metric_name", .str column.series),
    ("extrema", .str column.reduction.name)]
    ++ column.lastN.toList.map fun n => ("lastn", .int n))

end MetricColumn

/-- A column that shows the value at a path. -/
structure CustomColumn where
  name : String
  /-- The path of the value in a run's document. -/
  path : String
deriving DecidableEq

namespace CustomColumn

def ofJson? (value : Json) : Option CustomColumn :=
  match Decode.fields? ["name", "config_path"] value with
  | some [name, path] => do
    return { name := ← Decode.required Json.str? name, path := ← Decode.required Json.str? path }
  | _ => none

def toJson (column : CustomColumn) : Json :=
  .obj [("name", .str column.name), ("config_path", .str column.path)]

end CustomColumn

end RunTable
