import RunTable.Field
import RunTable.NameSet
import RunTable.Path

/-!
# Fields that are read and fields that are shown

A request that selects columns reads their fields and, on top of them, fields that its filter, its
sort or its computed columns need. Those are stripped again before the rows are shown. Paths
overlap: a needed field that lies below a selected one is read anyway, and one that lies above a
selected one is read but must not be stripped, since the selected field would go with it.

Nothing selected means everything is shown, and then nothing has to be forced or stripped.
-/

namespace RunTable

/-- The fields that a request reads and those of them that it strips again. -/
structure FieldSets where
  /-- The fields that are read; none means all. -/
  included : NameSet := .empty
  /-- The fields that are read and then stripped. -/
  stripped : NameSet := .empty
deriving DecidableEq

namespace FieldSets

def ofSelection (selection : List String) : FieldSets := { included := .ofList selection }

def isExplicit (sets : FieldSets) : Bool := !sets.included.isEmpty

/-- The fields that are read and shown. -/
def kept (sets : FieldSets) : NameSet :=
  sets.included.filter fun path => !sets.stripped.names.contains path

/-- Whether a field is read with the included ones. -/
def reads (sets : FieldSets) (field : String) : Bool :=
  sets.included.names.any fun path => Path.covers path field

/-- Makes sure that a field is read. It is stripped again unless a field that is shown lies below
it. -/
def force (sets : FieldSets) (field : String) : FieldSets :=
  if !sets.isExplicit || field == Field.id || sets.reads field then sets
  else
    let holdsKept := sets.kept.names.any (Path.isAncestor field)
    { included := sets.included.insert field
      stripped := if holdsKept then sets.stripped else sets.stripped.insert field }

/-- A path one segment longer. An empty path is no segment, so leading empty segments vanish. -/
def extend (path segment : String) : String :=
  if path.isEmpty then segment else path ++ "." ++ segment

/-- Goes down some segments as far as a kept field is there or below. -/
def widen (kept : List String) (path : String) : List String → String
  | [] => path
  | segment :: segments =>
    let longer := extend path segment
    if kept.any (Path.covers longer) then widen kept longer segments else longer

/-- The paths that are stripped: each stripped field goes with all of its surroundings that hold no
field that is shown. -/
def stripPaths (sets : FieldSets) : NameSet :=
  .ofList (sets.stripped.names.map fun path => widen sets.kept.names "" (Path.segments path))

end FieldSets

end RunTable
