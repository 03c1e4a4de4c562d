/-!
# Fields of a run

The stored fields that requests are planned around, and the fields that are computed under a name of
their own.
-/

namespace RunTable.Field

def id : String := "_id"

def status : String := "status"

/-- The derived time that a run has taken so far. -/
def duration : String := "duration"

def startTime : String := "start_time"

/-- The last sign of life of a run. -/
def heartbeat : String := "heartbeat"

/-- The references of a run to its metric series. -/
def metricRefs : String := "info.metrics"

/-- The number of runs, in the answer to a count. -/
def count : String := "count"

end RunTable.Field
