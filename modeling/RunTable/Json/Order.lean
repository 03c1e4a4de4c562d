import RunTable.Json.Basic

/-!
# Comparing JSON values

Values of different kinds are ordered by kind: null, then numbers, texts, objects, arrays and truth
values. Numbers compare by their nearest doubles, texts by code points, arrays and objects member
by member, the shorter first when one runs out.

Equality is coarser than identity, since `1` and `1.0` are equal, and in one place it is coarser
than being level too: objects are equal when they hold equal members, in whatever sequence.
-/

namespace RunTable

/-- Order by the nearest doubles. -/
instance : Ord Number := ⟨fun a b => compare a.toDouble b.toDouble⟩

namespace Json

/-- The place of a value's kind in the order of kinds. -/
def kindRank : Json → Nat
  | null => 0
  | num _ => 1
  | str _ => 2
  | obj _ => 3
  | arr _ => 4
  | bool _ => 5

def sameKind (a b : Json) : Bool := a.kindRank == b.kindRank

mutual

def cmp : Json → Json → Ordering
  | num a, num b => compare a b
  | str a, str b => compare a b
  | bool a, bool b => compare a b
  | arr as, arr bs => cmpItems as bs
  | obj as, obj bs => cmpMembers as bs
  | a, b => compare a.kindRank b.kindRank
termination_by structural a => a

/-- The order of arrays: the first difference decides, then the length. -/
def cmpItems : List Json → List Json → Ordering
  | [], [] => .eq
  | [], _ :: _ => .lt
  | _ :: _, [] => .gt
  | a :: as, b :: bs => (cmp a b).then (cmpItems as bs)
termination_by structural as => as

/-- The order of objects: names and values in turn, then the number of members. -/
def cmpMembers : List (String × Json) → List (String × Json) → Ordering
  | [], [] => .eq
  | [], _ :: _ => .lt
  | _ :: _, [] => .gt
  | (j, a) :: as, (k, b) :: bs => ((compare j k).then (cmp a b)).then (cmpMembers as bs)
termination_by structural as => as

end

mutual

/-- Equality up to the kind of number and the order of members. -/
def equal : Json → Json → Bool
  | null, null => true
  | bool a, bool b => a == b
  | num a, num b => compare a b == .eq
  | str a, str b => a == b
  | arr as, arr bs => equalItems as bs
  | obj as, obj bs => as.length == bs.length && equalMembers as bs
  | _, _ => false
termination_by structural a => a

/-- Whether two arrays have equal values in the same places. -/
def equalItems : List Json → List Json → Bool
  | [], [] => true
  | a :: as, b :: bs => equal a b && equalItems as bs
  | _, _ => false
termination_by structural as => as

/-- Whether each member on the left has an equal one of its name on the right. -/
def equalMembers : List (String × Json) → List (String × Json) → Bool
  | [], _ => true
  | (k, a) :: as, bs =>
    (match bs.lookup k with
      | some b => equal a b
      | none => false) && equalMembers as bs
termination_by structural as => as

end

end Json

end RunTable
