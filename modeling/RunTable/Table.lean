/-!
# Tables that remember their order

A table is a list of named entries, read with `List.lookup`. Writing a name that is present keeps
its place and writing a new name appends, so a table lists its names in the order in which they
first arrived.

Removal is the one operation that reorders: the last entry moves into the gap. Nothing else moves,
which makes a removal cost one entry and keeps every look-up of another name as it was.
-/

namespace RunTable.Table

variable {α : Type}

/-- Writes a value under a name: in place if the name is present, else at the end. -/
def put (name : String) (value : α) : List (String × α) → List (String × α)
  | [] => [(name, value)]
  | (key, old) :: rest =>
    if key = name then (key, value) :: rest else (key, old) :: put name value rest

/-- Removes a name; the last entry takes the place that falls free. -/
def erase (name : String) : List (String × α) → List (String × α)
  | [] => []
  | (key, value) :: rest =>
    if key = name then
      match rest.getLast? with
      | none => []
      | some last => last :: rest.dropLast
    else (key, value) :: erase name rest

/-- Writes all entries of a list, one after the other. -/
def putAll (table entries : List (String × α)) : List (String × α) :=
  entries.foldl (fun acc entry => put entry.1 entry.2 acc) table

/-- The table that a list of entries describes: of entries with one name the first gives the place
and the last the value. -/
def ofList (entries : List (String × α)) : List (String × α) := putAll [] entries

def names (table : List (String × α)) : List String := table.map (·.1)

@[simp] theorem lookup_put_self (name : String) (value : α) (table : List (String × α)) :
    (put name value table).lookup name = some value := by
  induction table with
  | nil => simp [put]
  | cons entry rest ih =>
    obtain ⟨key, old⟩ := entry
    by_cases h : key = name
    · simp [put, h]
    · have hb : (name == key) = false := by simpa using Ne.symm h
      simp [put, h, List.lookup_cons, hb, ih]

theorem lookup_put_of_ne {name other : String} (h : other ≠ name) (value : α)
    (table : List (String × α)) : (put name value table).lookup other = table.lookup other := by
  have hb : (other == name) = false := by simpa using h
  induction table with
  | nil => simp [put, List.lookup_cons, hb]
  | cons entry rest ih =>
    obtain ⟨key, old⟩ := entry
    by_cases hk : key = name
    · subst hk; simp [put, List.lookup_cons, hb]
    · simp [put, hk, List.lookup_cons, ih]

theorem names_put_of_mem {name : String} {table : List (String × α)} (h : name ∈ names table)
    (value : α) : names (put name value table) = names table := by
  induction table with
  | nil => simp [names] at h
  | cons entry rest ih =>
    obtain ⟨key, old⟩ := entry
    by_cases hk : key = name
    · simp [put, names, hk]
    · have hr : name ∈ names rest := by
        simp only [names, List.map_cons, List.mem_cons] at h
        rcases h with h | h
        · exact absurd h.symm hk
        · exact h
      have := ih hr
      simp only [names] at this
      simp [put, names, hk, this]

theorem names_put_of_not_mem {name : String} {table : List (String × α)} (h : name ∉ names table)
    (value : α) : names (put name value table) = names table ++ [name] := by
  induction table with
  | nil => simp [put, names]
  | cons entry rest ih =>
    obtain ⟨key, old⟩ := entry
    simp only [names, List.map_cons, List.mem_cons, not_or] at h
    have := ih (by simpa [names] using h.2)
    simp only [names] at this
    simp [put, names, Ne.symm h.1, this]

end RunTable.Table
