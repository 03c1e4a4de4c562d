import RunTable.Filter.Fields
import RunTable.Filter.Operator

/-!
# When a document passes a filter

A filter is an object whose members must all hold, from left to right; the first that does not hold
ends the search, so what stands behind it is not looked at and cannot fail. The functions recurse on
the filter alone. The document may grow on the way, when an item of an array is wrapped to be
tested as a field of its own.
-/

namespace RunTable.Filter

/-- Whether a condition is made of operators: a non-empty object with no other keys. -/
def isOperatorObject : Json → Bool
  | .obj members => !members.isEmpty && members.all fun member => isOperator member.1
  | _ => false

/-- The field under which an item of an array is tested alone. -/
def itemField : String := "v"

mutual

def holds : Json → Json → Except EvalError Bool
  | .obj clauses, doc => clausesHold clauses doc
  | other, _ => .error (.badFilter other)
termination_by structural filter => filter

def clausesHold : List (String × Json) → Json → Except EvalError Bool
  | [], _ => .ok true
  | (key, condition) :: clauses, doc => do
    let satisfied ←
      if isOperator key then
        match Logical.ofName? key, condition with
        | none, _ => throw (.unknownLogical key)
        | some _, .arr [] => throw (.noTerms key)
        | some .and, .arr (term :: terms) => allHold (term :: terms) doc
        | some .or, .arr (term :: terms) => anyHolds (term :: terms) doc
        | some .nor, .arr (term :: terms) => (anyHolds (term :: terms) doc).map (!·)
        | some _, _ => throw (.noTerms key)
      else fieldHolds condition doc key
    if satisfied then clausesHold clauses doc else return false
termination_by structural clauses => clauses

def allHold : List Json → Json → Except EvalError Bool
  | [], _ => .ok true
  | term :: terms, doc => do if ← holds term doc then allHold terms doc else return false
termination_by structural terms => terms

def anyHolds : List Json → Json → Except EvalError Bool
  | [], _ => .ok false
  | term :: terms, doc => do if ← holds term doc then return true else anyHolds terms doc
termination_by structural terms => terms

/-- Whether a condition holds for the field at a path: an object of operators is applied, and any
other value has to be equal. -/
def fieldHolds : Json → Json → String → Except EvalError Bool
  | .obj operators, doc, path =>
    if isOperatorObject (.obj operators) then operatorsHold operators doc path
    else .ok (equalsAny (Document.candidates path doc) (.obj operators))
  | value, doc, path => .ok (equalsAny (Document.candidates path doc) value)
termination_by structural condition => condition

/-- Whether all operators hold for the field at a path. -/
def operatorsHold : List (String × Json) → Json → String → Except EvalError Bool
  | [], _, _ => .ok true
  | (name, argument) :: operators, doc, path => do
    let satisfied ←
      match Operator.ofName? name with
      | none => throw (.unknownOperator name)
      | some .not => (fieldHolds argument doc path).map (!·)
      | some .someItem =>
        match Document.get? path doc with
        | some (.arr items) =>
          items.anyM fun item =>
            if isOperatorObject argument then fieldHolds argument (.single itemField item) itemField
            else holds argument item
        | _ => pure false
      | some (.test test) => test.holds argument doc path
    if satisfied then operatorsHold operators doc path else return false
termination_by structural operators => operators

end

/-- A filter that tests something: null and the empty object do not. -/
def effective? : Json → Option Json
  | .null => none
  | .obj [] => none
  | filter => some filter

end RunTable.Filter
