import RunTable.Document
import RunTable.Expr.Operators

/-!
# Evaluating expressions

The evaluator recurses on the expression and decides only what is evaluated and in which order; the
values come from the operators. Arguments are taken from left to right, so of two failures the left
one is reported.
-/

namespace RunTable.Expr

mutual

def eval : Expr → Json → Except EvalError Json
  | field path, doc => .ok (Document.getOrNull path doc)
  | root, doc => .ok doc
  | literal value, _ => .ok value
  | instant t, _ => .ok (.str t.text)
  | unary operator argument, doc => do operator.apply (← eval argument doc)
  | binary operator left right, doc => do
    let l ← eval left doc
    let r ← eval right doc
    operator.apply l r
  | ifNull value fallback, doc => do
    let v ← eval value doc
    if v.isNull then eval fallback doc else return v
  | cond test yes no, doc => do
    let t ← eval test doc
    if t.truthy then eval yes doc else eval no doc
  | all terms, doc => do return .bool (← evalAll terms doc)
  | merge parts, doc => do return .obj (← evalMerge parts doc [])
  | object fields, doc => do return .obj (Table.ofList (← evalFields fields doc))
termination_by structural expr => expr

def evalAll : List Expr → Json → Except EvalError Bool
  | [], _ => .ok true
  | term :: terms, doc => do
    let v ← eval term doc
    if v.truthy then evalAll terms doc else return false
termination_by structural terms => terms

/-- Writes the members of the parts into a table, part by part; null has none. -/
def evalMerge : List Expr → Json → List (String × Json) → Except EvalError (List (String × Json))
  | [], _, merged => .ok merged
  | part :: parts, doc, merged => do
    match ← eval part doc with
    | .null => evalMerge parts doc merged
    | .obj members => evalMerge parts doc (Table.putAll merged members)
    | other => throw (.mergedNonObject other)
termination_by structural parts => parts

/-- The names and values of computed members, as listed. -/
def evalFields : List (String × Expr) → Json → Except EvalError (List (String × Json))
  | [], _ => .ok []
  | (name, expr) :: fields, doc => do
    let v ← eval expr doc
    return (name, v) :: (← evalFields fields doc)
termination_by structural fields => fields

end

end RunTable.Expr
