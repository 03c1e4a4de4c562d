import RunTable.Error
import RunTable.Filter.Match
import RunTable.Json.Reader
import RunTable.Text.Blank

/-!
# Filters in requests

A request carries its filter as JSON text. A blank text, null and the empty object mean that there
is no filter.
-/

namespace RunTable.Filter

/-- The filter that a text holds, if any. -/
def ofText? (text : String) : Except Error (Option Json) :=
  if (Text.trim text).isEmpty then .ok none
  else
    match Json.ofText? text with
    | none => .error (.filterSyntax .notJson)
    | some .null => .ok none
    | some (.obj members) => .ok (effective? (.obj members))
    | some other => .error (.filterSyntax (.notObject other))

end RunTable.Filter
