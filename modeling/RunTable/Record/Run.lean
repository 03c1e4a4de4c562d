import RunTable.Instant.Relaxed
import RunTable.Instant.Text
import RunTable.Record.Status

/-!
# Run records

A run record is the document of a run with its parts named. Times that are not known are left out of
the document. The configuration may be any value and is kept as it is.
-/

namespace RunTable

/-- A reference from a run to one of its metric series. -/
structure MetricRef where
  id : String
  name : String
deriving DecidableEq

/-- A reference from a run to a stored artifact. -/
structure Artifact where
  name : String
  fileId : String
deriving DecidableEq

/-- One execution of an experiment. -/
structure Run where
  id : Int
  config : Json := .obj []
  experimentName : String := ""
  sources : List (String × String) := []
  status : Status := .completed
  startTime : Option Instant := none
  heartbeat : Option Instant := none
  stopTime : Option Instant := none
  metricRefs : List MetricRef := []
  artifacts : List Artifact := []
  tags : List String := []
  notes : String := ""

namespace MetricRef

def toJson (ref : MetricRef) : Json := .obj [("id", .str ref.id), ("name", .str ref.name)]

def ofJson? (value : Json) : Option MetricRef :=
  match Decode.fields? ["id", "name"] value with
  | some [id, name] => do
    return { id := ← Decode.required Json.str? id, name := ← Decode.required Json.str? name }
  | _ => none

end MetricRef

namespace Artifact

def toJson (artifact : Artifact) : Json :=
  .obj [("name", .str artifact.name), ("file_id", .str artifact.fileId)]

def ofJson? (value : Json) : Option Artifact :=
  match Decode.fields? ["name", "file_id"] value with
  | some [name, fileId] => do
    return {
      name := ← Decode.required Json.str? name, fileId := ← Decode.required Json.str? fileId }
  | _ => none

end Artifact

def Instant.ofJson? (value : Json) : Option Instant := value.str?.bind Instant.ofRelaxedText?

def Instant.toJson (t : Instant) : Json := .str t.exactText

namespace Run

/-- The run with a status; a derived one is stored as the status it is derived from. -/
def withStatus (run : Run) (status : Status) : Run := { run with status := status.stored }

def addSource (run : Run) (name fileId : String) : Run :=
  { run with sources := run.sources ++ [(name, fileId)] }

def addMetric (run : Run) (id name : String) : Run :=
  { run with metricRefs := run.metricRefs ++ [{ id, name }] }

def addArtifact (run : Run) (name fileId : String) : Run :=
  { run with artifacts := run.artifacts ++ [{ name, fileId }] }

def addTag (run : Run) (tag : String) : Run := { run with tags := run.tags ++ [tag] }

/-- The member for a time, if it is known. -/
def timeMember (name : String) (time : Option Instant) : List (String × Json) :=
  time.toList.map fun t => (name, t.toJson)

def toJson (run : Run) : Json :=
  let sources := run.sources.map fun (name, fileId) => Json.strings [name, fileId]
  .obj (
    [ ("_id", .int run.id),
      ("config", run.config),
      ("experiment", .obj [("name", .str run.experimentName), ("sources", .arr sources)]),
      ("status", .str run.status.name)]
    ++ timeMember "start_time" run.startTime
    ++ timeMember "heartbeat" run.heartbeat
    ++ timeMember "stop_time" run.stopTime
    ++ [("info", .single "metrics" (.arr (run.metricRefs.map MetricRef.toJson))),
      ("artifacts", .arr (run.artifacts.map Artifact.toJson)),
      ("omniboard", .obj [("tags", Json.strings run.tags), ("notes", .str run.notes)])])

def experiment? (value : Json) : Option (String × List (String × String)) :=
  match Decode.fields? ["name", "sources"] value with
  | some [name, sources] => do
    return (← Decode.required Json.str? name,
      ← Decode.required (Decode.list? Decode.textPair?) sources)
  | _ => none

def info? (value : Json) : Option (List MetricRef) :=
  match Decode.fields? ["metrics"] value with
  | some [metrics] => Decode.required (Decode.list? MetricRef.ofJson?) metrics
  | _ => none

def remarks? (value : Json) : Option (List String × String) :=
  match Decode.fields? ["tags", "notes"] value with
  | some [tags, notes] => do
    return (← Decode.required (Decode.list? Json.str?) tags, ← Decode.required Json.str? notes)
  | _ => none

/-- The fields of a run's document, in order. -/
def fieldNames : List String :=
  ["_id", "config", "experiment", "status", "start_time", "heartbeat", "stop_time", "info",
    "artifacts", "omniboard"]

def ofJson? (value : Json) : Option Run :=
  match Decode.fields? fieldNames value with
  | some [id, config, experiment, status, start, heartbeat, stop, info, artifacts, remarks] => do
    let (experimentName, sources) ← Decode.required experiment? experiment
    let (tags, notes) ← Decode.required remarks? remarks
    return {
      id := ← Decode.required Json.int64? id
      config := ← config
      experimentName, sources
      status := ← Decode.required Status.ofJson? status
      startTime := ← Decode.optional Instant.ofJson? start
      heartbeat := ← Decode.optional Instant.ofJson? heartbeat
      stopTime := ← Decode.optional Instant.ofJson? stop
      metricRefs := ← Decode.required info? info
      artifacts := ← Decode.required (Decode.list? Artifact.ofJson?) artifacts
      tags, notes }
  | _ => none

end Run

end RunTable
