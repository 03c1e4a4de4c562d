import RunTable.Json.Basic

/-!
# Decoding records

A record is stored as an object, whose other members are ignored, or as an array of its fields in
their order. An array may leave out fields at its end, but only those that an object may leave out
as well, and it may not be longer than the record. Integers are read from integers only, doubles
from every number.

A decoder gives nothing for a value that it refuses. What a field of a record is decoded with says
whether the field may be absent.
-/

namespace RunTable.Decode

/-- The values of the fields of a record, each of which may be absent. -/
def fields? (names : List String) : Json → Option (List (Option Json))
  | .obj members => some (names.map fun name => members.lookup name)
  | .arr items =>
    if items.length ≤ names.length then
      some (items.map some ++ List.replicate (names.length - items.length) none)
    else none
  | _ => none

/-- A field that has to be there. -/
def required {α : Type} (decode : Json → Option α) (field : Option Json) : Option α :=
  field.bind decode

/-- A field that may be absent or null. -/
def optional {α : Type} (decode : Json → Option α) : Option Json → Option (Option α)
  | none => some none
  | some .null => some none
  | some value => (decode value).map some

/-- A field that has a value of its own when it is absent. -/
def withDefault {α : Type} (value : α) (decode : Json → Option α) : Option Json → Option α
  | none => some value
  | some field => decode field

def bool? : Json → Option Bool
  | .bool b => some b
  | _ => none

def list? {α : Type} (decode : Json → Option α) : Json → Option (List α)
  | .arr items => items.mapM decode
  | _ => none

/-- A pair of texts, stored as an array of the two. -/
def textPair? : Json → Option (String × String)
  | .arr [.str first, .str second] => some (first, second)
  | _ => none

/-- The name of an alternative: a text, or an object whose only member has that name and is null. -/
def alternative? : Json → Option String
  | .str name => some name
  | .obj [(name, .null)] => some name
  | _ => none

end RunTable.Decode
