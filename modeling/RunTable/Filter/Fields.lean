import RunTable.Json.Basic
import RunTable.NameSet

/-!
# Fields that a filter refers to

A key that begins with `$` is an operator and every other key is a field. Lists and the values
under operators are searched for fields. The condition under a field is not, since its keys are
operators on that field, unless it is a list.
-/

namespace RunTable.Filter

def isOperator (key : String) : Bool := key.toList.head? == some '$'

mutual

/-- The fields of a node in the order in which they stand, repetitions included. -/
def listFields : Json → List String
  | .arr items => listItems items
  | .obj members => listMembers members
  | _ => []
termination_by structural node => node

def listItems : List Json → List String
  | [] => []
  | item :: items => listFields item ++ listItems items
termination_by structural items => items

/-- The fields that some members are or hold. -/
def listMembers : List (String × Json) → List String
  | [] => []
  | (key, node) :: members =>
    (if isOperator key then listFields node
      else
        key :: match node with
          | .arr items => listItems items
          | _ => []) ++ listMembers members
termination_by structural members => members

end

/-- The fields that occur anywhere in a node. -/
def fields (node : Json) : NameSet := .ofList (listFields node)

/-- The fields that a filter refers to; only an object is a filter. -/
def referencedFields (filter : Json) : NameSet := if filter.isObject then fields filter else .empty

end RunTable.Filter
