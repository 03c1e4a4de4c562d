import RunTable.Record.Run

/-!
# Metric records

A metric record is a series of points, stored as three lists of one length: the steps, the values
and the times of the points.
-/

namespace RunTable

structure Metric where
  id : String
  runId : Int
  name : String
  steps : List Nat := []
  values : List Double := []
  timestamps : List Instant := []
deriving DecidableEq

namespace Metric

def size (metric : Metric) : Nat := metric.values.length

def isEmpty (metric : Metric) : Bool := metric.values.isEmpty

def push (metric : Metric) (step : Nat) (value : Double) (time : Instant) : Metric :=
  { metric with
    steps := metric.steps ++ [step]
    values := metric.values ++ [value]
    timestamps := metric.timestamps ++ [time] }

/-- The series with points of some values, whose steps count on from the number of points so
far. -/
def pushValues (metric : Metric) (time : Instant) (values : List Double) : Metric :=
  values.foldl (fun m value => m.push m.steps.length value time) metric

def toJson (metric : Metric) : Json :=
  .obj [
    ("_id", .str metric.id),
    ("run_id", .int metric.runId),
    ("name", .str metric.name),
    ("steps", .arr (metric.steps.map .nat)),
    ("values", .arr (metric.values.map .double)),
    ("timestamps", .arr (metric.timestamps.map Instant.toJson))]

def ofJson? (value : Json) : Option Metric :=
  match Decode.fields? ["_id", "run_id", "name", "steps", "values", "timestamps"] value with
  | some [id, runId, name, steps, values, timestamps] => do
    return {
      id := ← Decode.required Json.str? id
      runId := ← Decode.required Json.int64? runId
      name := ← Decode.required Json.str? name
      steps := ← Decode.required (Decode.list? Json.nat64?) steps
      values := ← Decode.required (Decode.list? Json.toDouble?) values
      timestamps := ← Decode.required (Decode.list? Instant.ofJson?) timestamps }
  | _ => none

end Metric

end RunTable
