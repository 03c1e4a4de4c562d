import RunTable.Expr.Render
import RunTable.Pipeline.Stage

/-!
# Pipelines as JSON

A stage is written as an object of one member named for the stage. Of keys that occur twice in a
stage, the first gives the place and the last the value, as everywhere.
-/

namespace RunTable

def Projection.toJson (projection : Projection) : Json :=
  let flag : Int :=
    match projection.mode with
    | .keep => 1
    | .drop => 0
  .obj (projection.paths.names.map fun path => (path, .int flag))

def SortSpec.toJson (spec : SortSpec) : Json :=
  .obj (Table.ofList (spec.keys.map fun (field, direction) => (field, .int direction.sign)))

namespace Lookup

/-- The name of the variable for the reference in a written join. -/
def variableName : String := "ref"

/-- The written form of a join: the reference is bound to a variable, and a pipeline of one filter
picks the foreign documents. -/
def toJson (join : Lookup) : Json :=
  let equality := .single "$eq" (Json.strings ["$" ++ join.foreignPath, "$$" ++ variableName])
  let restriction := join.restriction.toList.map fun (path, accepted) =>
    (path, Json.single "$in" (Json.strings accepted))
  let filter := .obj (Table.ofList (("$expr", equality) :: restriction))
  .obj [
    ("from", .str join.collection),
    ("let", .single variableName (.str ("$" ++ join.localPath))),
    ("pipeline", .arr [.single "$match" filter]),
    ("as", .str join.target)]

end Lookup

def Accumulator.toJson : Accumulator → Json
  | first value => .single "$first" value.toJson
  | push value => .single "$push" value.toJson

namespace Stage

def name : Stage → String
  | select _ => "$match"
  | project _ => "$project"
  | compute _ => "$addFields"
  | sort _ => "$sort"
  | skip _ => "$skip"
  | limit _ => "$limit"
  | unwind _ _ => "$unwind"
  | lookup _ => "$lookup"
  | group _ _ => "$group"
  | replaceRoot _ => "$replaceRoot"
  | count _ => "$count"

def body : Stage → Json
  | select filter => filter
  | project projection => projection.toJson
  | compute fields => .obj (Table.ofList (fields.map fun (field, value) => (field, value.toJson)))
  | sort spec => spec.toJson
  | skip n => .nat n
  | limit n => .nat n
  | unwind path keepEmpty =>
    .obj [("path", .str ("$" ++ path)), ("preserveNullAndEmptyArrays", .bool keepEmpty)]
  | lookup join => join.toJson
  | group key fields =>
    .obj (Table.ofList ((Field.id, key.toJson) :: fields.map fun (field, a) => (field, a.toJson)))
  | replaceRoot value => .single "newRoot" value.toJson
  | count field => .str field

def toJson (stage : Stage) : Json := .single stage.name stage.body

end Stage

def Pipeline.toJson (stages : List Stage) : Json := .arr (stages.map Stage.toJson)

end RunTable
