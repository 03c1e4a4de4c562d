import RunTable.Document
import RunTable.Json.Order

/-!
# Sorting rows

A sort has a first key and any number of further ones, and a key decides only where those before it
leave two rows level. A missing value sorts as null. Rows that no key tells apart keep their order.
-/

namespace RunTable

inductive Direction where
  | ascending
  | descending
deriving DecidableEq

namespace Direction

def sign : Direction → Int
  | ascending => 1
  | descending => -1

/-- The direction of a number: descending if it is negative. -/
def ofSign (n : Int) : Direction := if n < 0 then descending else ascending

def orient : Direction → Ordering → Ordering
  | ascending, order => order
  | descending, order => order.swap

end Direction

/-- Sort keys, the first of the highest priority. -/
structure SortSpec where
  primary : String
  direction : Direction
  /-- The fields behind it and their directions. -/
  others : List (String × Direction) := []
deriving DecidableEq

namespace SortSpec

/-- All keys in order of priority. -/
def keys (spec : SortSpec) : List (String × Direction) :=
  (spec.primary, spec.direction) :: spec.others

/-- Adds a key of the lowest priority, unless the field is a key already. -/
def thenBy (spec : SortSpec) (field : String) (direction : Direction) : SortSpec :=
  if spec.keys.any fun key => key.1 == field then spec
  else { spec with others := spec.others ++ [(field, direction)] }

/-- A sort by one field has one key. -/
theorem keys_primary (field : String) (direction : Direction) :
    keys { primary := field, direction } = [(field, direction)] := rfl

theorem any_keys_iff {spec : SortSpec} {field : String} :
    (spec.keys.any fun key => key.1 == field) = true ↔ field ∈ Table.names spec.keys := by
  simp [Table.names]

theorem keys_thenBy_of_mem {spec : SortSpec} {field : String} (h : field ∈ Table.names spec.keys)
    (direction : Direction) : (spec.thenBy field direction).keys = spec.keys := by
  rw [thenBy, if_pos (any_keys_iff.mpr h)]

/-- A further key comes behind all others. -/
theorem keys_thenBy_of_not_mem {spec : SortSpec} {field : String}
    (h : field ∉ Table.names spec.keys) (direction : Direction) :
    (spec.thenBy field direction).keys = spec.keys ++ [(field, direction)] := by
  rw [thenBy, if_neg (mt any_keys_iff.mp h)]
  rfl

def cmpBy : List (String × Direction) → Json → Json → Ordering
  | [], _, _ => .eq
  | (field, direction) :: keys, a, b =>
    (direction.orient ((Document.getOrNull field a).cmp (Document.getOrNull field b))).then
      (cmpBy keys a b)

def cmp (spec : SortSpec) (a b : Json) : Ordering := cmpBy spec.keys a b

/-- The rows in order; rows that are level stay in the order they came in. -/
def sort (spec : SortSpec) (rows : List Json) : List Json :=
  rows.mergeSort fun a b => spec.cmp a b != .gt

theorem perm_sort (spec : SortSpec) (rows : List Json) : (spec.sort rows).Perm rows :=
  List.mergeSort_perm _ _

end SortSpec

end RunTable
