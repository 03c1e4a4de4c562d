import RunTable.Json.Decode

/-!
# The status of a run

One status is never stored: a run that is stored as running but has been silent for too long is
called probably dead when it is read.
-/

namespace RunTable

inductive Status where
  | running
  | completed
  | failed
  | interrupted
  | timeout
  | queued
  /-- The run should be going on but is silent. -/
  | probablyDead
deriving DecidableEq

namespace Status

def all : List Status :=
  [running, completed, failed, interrupted, timeout, queued, probablyDead]

/-- The name under which a status is stored and shown. -/
def name : Status → String
  | running => "RUNNING"
  | completed => "COMPLETED"
  | failed => "FAILED"
  | interrupted => "INTERRUPTED"
  | timeout => "TIMEOUT"
  | queued => "QUEUED"
  | probablyDead => "PROBABLY_DEAD"

/-- Whether a status exists only when a run is read. -/
def isDerived (status : Status) : Bool := status == probablyDead

/-- The status that is stored for a status. -/
def stored (status : Status) : Status := if status.isDerived then running else status

def ofName? (name : String) : Option Status := all.find? fun status => status.name == name

def ofJson? (value : Json) : Option Status := (Decode.alternative? value).bind ofName?

theorem ofName?_name (status : Status) : ofName? status.name = some status := by
  cases status <;> decide

theorem isDerived_stored (status : Status) : status.stored.isDerived = false := by
  cases status <;> decide

end Status

end RunTable
