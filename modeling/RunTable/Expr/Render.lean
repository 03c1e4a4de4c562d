import RunTable.Expr.Basic
import RunTable.Instant.Text
import RunTable.Json.Basic
import RunTable.Table

/-!
# Expressions as JSON

An expression is written as an object of one member named for its operator. A text that begins with
`$` refers to a field, so a constant that begins with one is wrapped, and so is a constant object,
which might read as an operator.
-/

namespace RunTable

/-- The name of the variable for an item in a written selection. -/
def Unary.itemVariable : String := "item"

def Unary.toJson : Unary → Json → Json
  | size, argument => .single "$size" argument
  | elementAt index, argument => .single "$arrayElemAt" (.arr [argument, .int index])
  | slice count, argument => .single "$slice" (.arr [argument, .int count])
  | least, argument => .single "$min" argument
  | greatest, argument => .single "$max" argument
  | mean, argument => .single "$avg" argument
  | member name, argument =>
    .single "$getField" (.obj [("field", .str name), ("input", argument)])
  | toObject, argument => .single "$arrayToObject" argument
  | withMember name values, argument =>
    .single "$filter" (.obj [
      ("input", argument),
      ("as", .str itemVariable),
      ("cond", .single "$in" (.arr [.str ("$$" ++ itemVariable ++ "." ++ name), .arr values]))])

def Binary.name : Binary → String
  | subtract => "$subtract"
  | equal => "$eq"
  | above => "$gt"

namespace Expr

/-- Whether a text begins with the mark of a field reference. -/
def isReference (text : String) : Bool := text.toList.head? == some '$'

def literalJson : Json → Json
  | .str text => if isReference text then .single "$literal" (.str text) else .str text
  | .obj members => .single "$literal" (.obj members)
  | other => other

mutual

def toJson : Expr → Json
  | field path => .str ("$" ++ path)
  | root => .str "$$ROOT"
  | literal value => literalJson value
  | instant t => .single "$date" (.str t.text)
  | unary operator argument => operator.toJson (toJson argument)
  | binary operator left right => .single operator.name (.arr [toJson left, toJson right])
  | ifNull value fallback => .single "$ifNull" (.arr [toJson value, toJson fallback])
  | cond test yes no =>
    .single "$cond" (.obj [("if", toJson test), ("then", toJson yes), ("else", toJson no)])
  | all terms => .single "$and" (.arr (itemsJson terms))
  | merge parts => .single "$mergeObjects" (.arr (itemsJson parts))
  | object fields => .obj (Table.ofList (fieldsJson fields))
termination_by structural expr => expr

def itemsJson : List Expr → List Json
  | [] => []
  | expr :: exprs => toJson expr :: itemsJson exprs
termination_by structural exprs => exprs

def fieldsJson : List (String × Expr) → List (String × Json)
  | [] => []
  | (name, expr) :: fields => (name, toJson expr) :: fieldsJson fields
termination_by structural fields => fields

end

end Expr

end RunTable
