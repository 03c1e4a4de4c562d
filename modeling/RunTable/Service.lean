import RunTable.Compile
import RunTable.Params
import RunTable.Response
import RunTable.Store

/-!
# Answering requests

The column definitions are read from the store for each request, so a request sees the columns that
are defined when it is answered. Everything that can go wrong with a request is an error of one
kind; what of it a caller is told is a matter of the error.
-/

namespace RunTable

/-- The catalog of the columns that are defined in a store. -/
def Catalog.load (store : Store) (settings : Settings) : Except Error Catalog :=
  Catalog.ofDocuments (store.documents settings.metricColumns)
    (store.documents settings.customColumns)

/-- The response of a compiled request on a store. -/
def Compiled.execute (compiled : Compiled) (store : Store) : Except Error Response :=
  match store.run compiled.collection compiled.stages with
  | .ok rows => .ok (.ofRows compiled.mode rows)
  | .error cause => .error (.store cause)

namespace Service

def answer (store : Store) (settings : Settings) (now : Instant) (request : Request) :
    Except Error Response := do
  let catalog ← Catalog.load store settings
  (request.compile settings catalog now).execute store

/-- The values of a column in the runs that pass a filter. -/
def distinct (store : Store) (settings : Settings) (column : String) (filter : Option Json) :
    Except Error Response := do
  let catalog ← Catalog.load store settings
  match store.distinct settings.runs (catalog.resolve column) filter with
  | .ok values => return .distinct values
  | .error cause => throw (.store cause)

/-- A page of runs, or the values of a column if the parameters ask for those. -/
def listRuns (store : Store) (settings : Settings) (now : Instant) (params : Params) :
    Except Error Response :=
  match params.distinct with
  | some column => distinct store settings column params.filter
  | none => answer store settings now (params.toRequest .list)

/-- The run whose number a text gives. -/
def getRun (store : Store) (settings : Settings) (now : Instant) (id : String) (params : Params) :
    Except Error Response :=
  match Numeral.signed? (Text.trim id) with
  | some n => answer store settings now (params.toRequest (.single n))
  | none => .error (.parameter "id" (.notRunId id))

/-- The number of runs that pass the filter of the parameters. -/
def countRuns (store : Store) (settings : Settings) (now : Instant) (params : Params) :
    Except Error Response :=
  answer store settings now (params.toRequest .count)

end Service

end RunTable
