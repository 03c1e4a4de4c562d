/-!
# Sets of names

A set of names lists its members in order of code points, each once. Both facts are one: the list
is strictly ascending, and it is kept with the list, so that two sets with the same members are the
same value.
-/

namespace RunTable

/-- A strictly ascending list of names. -/
structure NameSet where
  names : List String
  /-- Each member is below those behind it. -/
  ascending : names.Pairwise (· < ·) := by simp
deriving DecidableEq

namespace NameSet

def empty : NameSet := { names := [] }

instance : Inhabited NameSet := ⟨empty⟩

def isEmpty (set : NameSet) : Bool := set.names.isEmpty

instance : Membership String NameSet := ⟨fun set name => name ∈ set.names⟩

instance (name : String) (set : NameSet) : Decidable (name ∈ set) :=
  inferInstanceAs (Decidable (name ∈ set.names))

/-- Puts a name in its place of an ascending list, unless it is there. -/
def place (name : String) : List String → List String
  | [] => [name]
  | head :: rest =>
    if name < head then name :: head :: rest
    else if name = head then head :: rest
    else head :: place name rest

theorem mem_place {name other : String} {names : List String} :
    other ∈ place name names ↔ other = name ∨ other ∈ names := by
  induction names with
  | nil => simp [place]
  | cons head rest ih =>
    unfold place
    split
    · simp
    · split
      · next h => subst h; simp
      · simp [ih, or_left_comm]

theorem ascending_place (name : String) {names : List String} (h : names.Pairwise (· < ·)) :
    (place name names).Pairwise (· < ·) := by
  induction names with
  | nil => simp [place]
  | cons head rest ih =>
    obtain ⟨hhead, hrest⟩ := List.pairwise_cons.1 h
    unfold place
    split
    · next hlt =>
      refine List.pairwise_cons.2 ⟨fun other hmem => ?_, h⟩
      rcases List.mem_cons.1 hmem with rfl | hmem
      · exact hlt
      · exact String.lt_trans hlt (hhead _ hmem)
    · next hnot =>
      split
      · exact h
      · next hne =>
        refine List.pairwise_cons.2 ⟨fun other hmem => ?_, ih hrest⟩
        rcases mem_place.1 hmem with rfl | hmem
        · exact Std.lt_of_le_of_ne (String.not_lt.1 hnot) (Ne.symm hne)
        · exact hhead _ hmem

def insert (name : String) (set : NameSet) : NameSet :=
  ⟨place name set.names, ascending_place name set.ascending⟩

/-- The set with all names of a list added. -/
def insertAll (set : NameSet) (names : List String) : NameSet :=
  names.foldl (fun acc name => acc.insert name) set

def ofList (names : List String) : NameSet := empty.insertAll names

def filter (keep : String → Bool) (set : NameSet) : NameSet :=
  ⟨set.names.filter keep, set.ascending.filter keep⟩

theorem mem_names {name : String} {set : NameSet} : name ∈ set.names ↔ name ∈ set := Iff.rfl

@[simp] theorem not_mem_empty (name : String) : name ∉ empty := by simp [← mem_names, empty]

@[simp] theorem mem_insert {name other : String} {set : NameSet} :
    other ∈ set.insert name ↔ other = name ∨ other ∈ set := mem_place

@[simp] theorem mem_insertAll {name : String} {set : NameSet} {names : List String} :
    name ∈ set.insertAll names ↔ name ∈ set ∨ name ∈ names := by
  induction names generalizing set with
  | nil => simp [insertAll]
  | cons head rest ih =>
    have := @ih (set.insert head)
    simp only [insertAll, List.foldl_cons] at this ⊢
    simp [this, or_assoc, or_left_comm]

@[simp] theorem mem_ofList {name : String} {names : List String} :
    name ∈ ofList names ↔ name ∈ names := by simp [ofList]

@[simp] theorem mem_filter {name : String} {keep : String → Bool} {set : NameSet} :
    name ∈ set.filter keep ↔ name ∈ set ∧ keep name = true := by
  simp [← mem_names, filter]

end NameSet

end RunTable
