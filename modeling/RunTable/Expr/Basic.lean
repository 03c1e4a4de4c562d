import RunTable.Instant.Basic
import RunTable.Json.Basic

/-!
# Expressions over a document

An expression computes a value from one document. Operators that always need all their arguments
are strict, and there is one node for those of one argument and one for those of two; the nodes of
their own are the ones that may leave an argument alone or take any number of them.
-/

namespace RunTable

/-- A strict operator of one argument. -/
inductive Unary where
  | size
  /-- The item at a position, counted from the end when negative. -/
  | elementAt (index : Int)
  /-- The first so many items, or the last when the count is negative. -/
  | slice (count : Int)
  | least
  | greatest
  | mean
  /-- The member of an object under a literal name, dots and all. -/
  | member (name : String)
  /-- The object that an array of entries describes. -/
  | toObject
  /-- The objects of an array whose member is one of some values. -/
  | withMember (name : String) (values : List Json)

/-- A strict operator of two arguments. -/
inductive Binary where
  | subtract
  | equal
  | above
deriving DecidableEq

/-- An expression over one document. -/
inductive Expr where
  /-- The value at a path, null if there is none. -/
  | field (path : String)
  | root
  | literal (value : Json)
  | instant (time : Instant)
  | unary (operator : Unary) (argument : Expr)
  | binary (operator : Binary) (left right : Expr)
  /-- The first value, or the second if the first is null. -/
  | ifNull (value fallback : Expr)
  | cond (test yes no : Expr)
  /-- Whether all terms hold; those behind the first that does not are left alone. -/
  | all (terms : List Expr)
  /-- The members of some objects in one, the later ones in front. -/
  | merge (parts : List Expr)
  | object (fields : List (String × Expr))

namespace Expr

instance : Inhabited Expr := ⟨root⟩

def null : Expr := literal .null

def str (text : String) : Expr := literal (.str text)

def subtract (left right : Expr) : Expr := binary .subtract left right

def equal (left right : Expr) : Expr := binary .equal left right

def above (left right : Expr) : Expr := binary .above left right

/-- The member of an expression's value under a literal name. -/
def member (name : String) (object : Expr) : Expr := unary (.member name) object

end Expr

end RunTable
