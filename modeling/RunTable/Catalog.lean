import RunTable.Column
import RunTable.Error

/-!
# The column catalog

Requests name columns as they are shown. A custom column stands for its path, a few built-in names
stand for stored fields, and any other name is a field already. A custom column may take over a
built-in name. Metric columns stand for themselves, since their values are computed under their own
names.
-/

namespace RunTable

/-- The columns that are defined at present. -/
structure Catalog where
  metricColumns : List MetricColumn := []
  customColumns : List CustomColumn := []
deriving DecidableEq

namespace Catalog

/-- Names of columns that stand for a stored field of another name. -/
def builtins : List (String × String) :=
  [("id", "_id"), ("experiment_name", "experiment.name"), ("tags", "omniboard.tags"),
    ("notes", "omniboard.notes")]

/-- The field that a column stands for. -/
def resolve (catalog : Catalog) (column : String) : String :=
  match catalog.customColumns.find? fun custom => custom.name == column with
  | some custom => custom.path
  | none => (builtins.lookup column).getD column

/-- Whether a field is computed as a metric column. -/
def isMetric (catalog : Catalog) (field : String) : Bool :=
  catalog.metricColumns.any fun column => column.name == field

/-- Decodes each definition of a list; tells the position of the first that cannot be decoded. -/
def decodeAll {α : Type} (decode : Json → Option α) (fault : Nat → CatalogFault) :
    Nat → List Json → Except Error (List α)
  | _, [] => .ok []
  | position, doc :: docs =>
    match decode doc with
    | none => .error (.catalog (fault position))
    | some definition => do return definition :: (← decodeAll decode fault (position + 1) docs)

/-- The catalog of stored definitions. -/
def ofDocuments (metricColumns customColumns : List Json) : Except Error Catalog := do
  let metric ← decodeAll MetricColumn.ofJson? .metricColumn 0 metricColumns
  let custom ← decodeAll CustomColumn.ofJson? .customColumn 0 customColumns
  return { metricColumns := metric, customColumns := custom }

end Catalog

end RunTable
