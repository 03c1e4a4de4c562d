import RunTable.Double.Basic
import RunTable.Word

/-!
# JSON values

Documents, filters and rendered pipelines are JSON. An integer keeps all its digits and is never
the same value as a double, though the two may compare equal. An object is a table: the order of
its members is part of the value, and every operation that builds one keeps its names apart.
-/

namespace RunTable

inductive Number where
  | int (n : Int)
  | double (x : Double)
deriving DecidableEq

inductive Json where
  | null
  | bool (b : Bool)
  | num (n : Number)
  | str (text : String)
  | arr (items : List Json)
  /-- Named values, in order. -/
  | obj (members : List (String × Json))

def Number.toDouble : Number → Double
  | .int n => Double.ofInt n
  | .double x => x

namespace Json

instance : Inhabited Json := ⟨null⟩

def int (n : Int) : Json := num (.int n)

def nat (n : Nat) : Json := int n

def double (x : Double) : Json := num (.double x)

/-- A double as a value, null when there is none. -/
def ofDouble? (x : Option Double) : Json := x.elim null double

def single (name : String) (value : Json) : Json := obj [(name, value)]

def strings (texts : List String) : Json := arr (texts.map str)

def isNull : Json → Bool
  | null => true
  | _ => false

def isObject : Json → Bool
  | obj _ => true
  | _ => false

def isNumber : Json → Bool
  | num _ => true
  | _ => false

def str? : Json → Option String
  | str text => some text
  | _ => none

/-- The nearest double of a number. -/
def toDouble? : Json → Option Double
  | num n => some n.toDouble
  | _ => none

/-- An integer value that fits 64 signed bits. -/
def int64? : Json → Option Int
  | num (.int n) => if Word.fitsSigned n then some n else none
  | _ => none

/-- An integer value that fits 64 unsigned bits. -/
def nat64? : Json → Option Nat
  | num (.int n) => if Word.fitsUnsigned n then some n.toNat else none
  | _ => none

/-- The members of an object, none for any other value. -/
def members : Json → List (String × Json)
  | obj ms => ms
  | _ => []

/-- The value of a member, if this is an object that has it. -/
def member? (name : String) : Json → Option Json
  | obj ms => ms.lookup name
  | _ => none

/-- Whether a condition takes the value for true: everything but null, false and zero. -/
def truthy : Json → Bool
  | null => false
  | bool b => b
  | num n => !n.toDouble.isZero
  | _ => true

end Json

end RunTable
