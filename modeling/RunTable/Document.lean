import RunTable.Json.Basic
import RunTable.Path
import RunTable.Table
import RunTable.Text.Numeral

/-!
# Reading and writing documents

A document is any JSON value. Each operation recurses on the segments of a path, and the versions
that take a path as one text only split it first.

Reading follows one branch and may step into an array by position. Writing knows objects only: what
is in the way is replaced by an object. The values that a filter tests are wider than the one that
is read: at an array they continue in every object it holds as well, and at the end an array stands
for itself and for each of its items.
-/

namespace RunTable.Document

/-- The item that a segment names by its position. -/
def item? (segment : String) (items : List Json) : Option Json :=
  (Numeral.unsigned? segment).bind (items[·]?)

/-- The value one level below, by name in an object and by position in an array. -/
def child? (segment : String) : Json → Option Json
  | .obj members => members.lookup segment
  | .arr items => item? segment items
  | _ => none

/-- The value at the end of a list of segments. -/
def getAt? : List String → Json → Option Json
  | [], doc => some doc
  | segment :: rest, doc => (child? segment doc).bind (getAt? rest)

def get? (path : String) (doc : Json) : Option Json := getAt? (Path.segments path) doc

/-- The value at a path, null if there is none. -/
def getOrNull (path : String) (doc : Json) : Json := (get? path doc).getD .null

/-- Writes a value at the end of a list of segments. Objects that are missing on the way are made,
and other values on the way are replaced by objects. -/
def setAt : List String → Json → Json → Json
  | [], value, _ => value
  | segment :: rest, value, doc =>
    .obj (Table.put segment (setAt rest value ((doc.member? segment).getD (.obj []))) doc.members)

def set (path : String) (value doc : Json) : Json := setAt (Path.segments path) value doc

/-- Removes the member at the end of a list of segments; gives its value and the document without
it, or nothing if there is no such member. Arrays are not entered. -/
def removeAt? : List String → Json → Option (Json × Json)
  | [], _ => none
  | [name], doc => (doc.member? name).map fun value => (value, .obj (Table.erase name doc.members))
  | name :: rest, doc =>
    match doc.member? name with
    | none => none
    | some child =>
      (removeAt? rest child).map fun (value, child) =>
        (value, .obj (Table.put name child doc.members))

/-- Removes the member at a path; gives its value and the document without it. -/
def remove? (path : String) (doc : Json) : Option (Json × Json) :=
  removeAt? (Path.segments path) doc

def remove (path : String) (doc : Json) : Json := ((remove? path doc).map (·.2)).getD doc

/-- The values one level below that a filter follows: by position and, in each object of an array,
by name. -/
def children (segment : String) : Json → List Json
  | .obj members => (members.lookup segment).toList
  | .arr items => (item? segment items).toList ++ items.filterMap (Json.member? segment)
  | _ => []

/-- What a value at the end of a path contributes: itself, behind its items if it is an array. -/
def leaves : Json → List Json
  | .arr items => items ++ [.arr items]
  | value => [value]

/-- The values at the end of a list of segments that a filter tests. -/
def candidatesAt : List String → Json → List Json
  | [], doc => leaves doc
  | segment :: rest, doc => (children segment doc).flatMap (candidatesAt rest)

/-- The values at a path that a filter tests. -/
def candidates (path : String) (doc : Json) : List Json := candidatesAt (Path.segments path) doc

/-- What is written at a place is read there. -/
theorem getAt?_setAt (segments : List String) (value doc : Json) :
    getAt? segments (setAt segments value doc) = some value := by
  induction segments generalizing doc with
  | nil => rfl
  | cons segment rest ih => simp [setAt, getAt?, child?, ih]

/-- What is written at a path is read there. -/
theorem get?_set (path : String) (value doc : Json) : get? path (set path value doc) = some value :=
  getAt?_setAt _ _ _

/-- A value that is read is among those that a filter tests. -/
theorem mem_candidatesAt {segments : List String} {doc value : Json}
    (h : getAt? segments doc = some value) : value ∈ candidatesAt segments doc := by
  induction segments generalizing doc with
  | nil =>
    obtain rfl : doc = value := by simpa [getAt?] using h
    cases doc <;> simp [candidatesAt, leaves]
  | cons segment rest ih =>
    simp only [getAt?, Option.bind_eq_some_iff] at h
    obtain ⟨child, hchild, hrest⟩ := h
    refine List.mem_flatMap.2 ⟨child, ?_, ih hrest⟩
    cases doc <;> simp_all [child?, children]

end RunTable.Document
