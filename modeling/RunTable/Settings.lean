import RunTable.Json.Decode

/-!
# Settings

Every setting has a default, so a stored value of the settings may leave out any of them. Only the
cap on the page size may be null.
-/

namespace RunTable

/-- What is fixed for all requests. -/
structure Settings where
  /-- How many milliseconds after its last sign of life a running run counts as dead. -/
  deadAfterMillis : Int := 120000
  defaultLimit : Nat := 200
  /-- The greatest page size, if there is one. -/
  maxLimit : Option Nat := none
  /-- Whether large sorts and groups may use the disk. -/
  allowDiskUse : Bool := true
  runs : String := "runs"
  metrics : String := "metrics"
  metricColumns : String := "omniboard.metric.columns"
  customColumns : String := "omniboard.custom.columns"
deriving DecidableEq

namespace Settings

/-- The page size that is used for a wanted one. -/
def clampLimit (settings : Settings) (limit : Nat) : Nat := settings.maxLimit.elim limit (min limit)

/-- The names of the settings as stored, in order. -/
def fieldNames : List String :=
  ["probably_dead_after_ms", "default_limit", "max_limit", "allow_disk_use", "runs_collection",
    "metrics_collection", "metric_columns_collection", "custom_columns_collection"]

def ofJson? (value : Json) : Option Settings :=
  let base : Settings := {}
  match Decode.fields? fieldNames value with
  | some [dead, limit, cap, disk, runs, metrics, metricColumns, customColumns] => do
    return {
      deadAfterMillis := ← Decode.withDefault base.deadAfterMillis Json.int64? dead
      defaultLimit := ← Decode.withDefault base.defaultLimit Json.nat64? limit
      maxLimit := ← Decode.optional Json.nat64? cap
      allowDiskUse := ← Decode.withDefault base.allowDiskUse Decode.bool? disk
      runs := ← Decode.withDefault base.runs Json.str? runs
      metrics := ← Decode.withDefault base.metrics Json.str? metrics
      metricColumns := ← Decode.withDefault base.metricColumns Json.str? metricColumns
      customColumns := ← Decode.withDefault base.customColumns Json.str? customColumns }
  | _ => none

def toJson (settings : Settings) : Json :=
  .obj (fieldNames.zip [
    .int settings.deadAfterMillis,
    .nat settings.defaultLimit,
    settings.maxLimit.elim .null .nat,
    .bool settings.allowDiskUse,
    .str settings.runs,
    .str settings.metrics,
    .str settings.metricColumns,
    .str settings.customColumns])

end Settings

end RunTable
