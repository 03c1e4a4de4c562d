import RunTable.Document
import RunTable.Field
import RunTable.NameSet

/-!
# Projections

A projection keeps or drops the values at some paths. A path below another one of the set adds
nothing and is left out, so no two paths of a projection overlap and each can be written without
regard to the others. Rows keep their `_id` in any case.
-/

namespace RunTable

/-- What a projection does with its paths. -/
inductive Projection.Mode where
  | keep
  | drop
deriving DecidableEq

/-- The members that have no other member above them. -/
def NameSet.roots (names : NameSet) : NameSet :=
  names.filter fun path => !names.names.any fun other => Path.isAncestor other path

/-- A projection onto paths none of which lies above another. -/
structure Projection where
  mode : Projection.Mode
  paths : NameSet

namespace Projection

def keep (paths : NameSet) : Projection := ⟨.keep, paths.roots⟩

def drop (paths : NameSet) : Projection := ⟨.drop, paths.roots⟩

/-- Copies the value at a path from one document to another, if there is one. -/
def copy (source : Json) (target : Json) (path : String) : Json :=
  match Document.get? path source with
  | some value => Document.set path value target
  | none => target

/-- The row that a projection leaves of a row. -/
def apply (projection : Projection) (row : Json) : Json :=
  match projection.mode with
  | .keep => (Field.id :: projection.paths.names).foldl (copy row) (.obj [])
  | .drop => projection.paths.names.foldl (fun rest path => Document.remove path rest) row

/-- No path of a projection lies above another. -/
theorem not_isAncestor_roots {names : NameSet} {a b : String} (ha : a ∈ names.roots)
    (hb : b ∈ names.roots) : Path.isAncestor a b = false := by
  simp only [NameSet.roots, NameSet.mem_filter] at ha hb
  simpa using List.any_eq_false.1 (by simpa using hb.2) a (NameSet.mem_names.2 ha.1)

end Projection

end RunTable
