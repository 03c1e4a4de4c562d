import RunTable.Field
import RunTable.Pipeline.Stage
import RunTable.Record.Status

/-!
# Derived columns

The duration of a run and its status are derived from what is stored and from the present. Both are
computed before rows are filtered, so a filter or a sort sees the derived values.
-/

namespace RunTable

/-- Which derived columns are needed. -/
@[ext]
structure Derived where
  duration : Bool := false
  /-- The status, silence taken for death. -/
  status : Bool := false
deriving DecidableEq

namespace Derived

def any (derived : Derived) : Bool := derived.duration || derived.status

/-- The milliseconds from the start of a run to its last sign of life. -/
def durationExpr : Expr := .subtract (.field Field.heartbeat) (.field Field.startTime)

/-- The stored status, except that a running run whose last sign of life, or else its start, is too
long ago is probably dead. -/
def statusExpr (now : Instant) (deadAfterMillis : Int) : Expr :=
  let lastSeen := .ifNull (.field Field.heartbeat) (.field Field.startTime)
  let silence := .subtract (.instant now) lastSeen
  let isRunning := .equal (.field Field.status) (.str Status.running.name)
  .cond (.all [isRunning, .above silence (.literal (.int deadAfterMillis))])
    (.str Status.probablyDead.name) (.field Field.status)

/-- The stage that computes the needed columns, if any. -/
def stage? (derived : Derived) (now : Instant) (deadAfterMillis : Int) : Option Stage :=
  let computed :=
    (if derived.duration then [(Field.duration, durationExpr)] else [])
      ++ (if derived.status then [(Field.status, statusExpr now deadAfterMillis)] else [])
  if computed.isEmpty then none else some (.compute computed)

end Derived

end RunTable
