import Mathlib.Data.List.Forall2
import RunTable.Table

/-!
# What the operations on tables do to look-ups and to names

A table is read in two ways, by `List.lookup` and by the list of its names. This file says what
writing, merging and removing do to either view, so that nothing above it has to open an operation.

Removal is the only one with a side condition. It moves the last entry into the gap, so a name that
stands twice could change which of its entries comes first; while names are apart, the order of the
entries is invisible to a look-up and the move does no harm. Rows keep their names apart because
every write does.
-/

namespace RunTable.Table

variable {α β : Type}

theorem names_append (table entries : List (String × α)) :
    names (table ++ entries) = names table ++ names entries := List.map_append

theorem names_cons (entry : String × α) (table : List (String × α)) :
    names (entry :: table) = entry.1 :: names table := rfl

theorem mem_names {name : String} {value : α} {table : List (String × α)}
    (h : (name, value) ∈ table) : name ∈ names table := List.mem_map_of_mem h

theorem mem_of_lookup {name : String} {value : α} {table : List (String × α)}
    (h : table.lookup name = some value) : (name, value) ∈ table := by
  obtain ⟨before, after, rfl, -⟩ := List.lookup_eq_some_iff.mp h
  exact List.mem_append_right _ List.mem_cons_self

theorem lookup_eq_none_iff {name : String} {table : List (String × α)} :
    table.lookup name = none ↔ name ∉ names table := by
  rw [List.lookup_eq_none_iff]
  constructor
  · intro h hmem
    obtain ⟨entry, hentry, rfl⟩ := List.mem_map.mp hmem
    simpa using h entry hentry
  · intro h entry hentry
    have hne : name ≠ entry.1 := fun heq => h (heq ▸ mem_names hentry)
    simpa using hne

theorem lookup_isSome_iff {name : String} {table : List (String × α)} :
    (table.lookup name).isSome ↔ name ∈ names table := by
  rw [Option.isSome_iff_ne_none, ne_eq, lookup_eq_none_iff, Decidable.not_not]

/-- While names are apart, a look-up finds exactly the entries of the table. -/
theorem lookup_eq_some_iff_mem {name : String} {value : α} {table : List (String × α)}
    (h : (names table).Nodup) : table.lookup name = some value ↔ (name, value) ∈ table := by
  induction table with
  | nil => simp
  | cons entry rest ih =>
      obtain ⟨key, old⟩ := entry
      rw [names_cons, List.nodup_cons] at h
      by_cases hk : name = key
      · subst hk
        have hnot : (name, value) ∉ rest := fun hmem => h.1 (mem_names hmem)
        simp [hnot, eq_comm]
      · have hb : (name == key) = false := by simpa using hk
        simp [List.lookup_cons, hb, ih h.2, hk]

theorem eq_of_mem {name : String} {value : α} {table : List (String × α)}
    (h : (names table).Nodup) (hmem : (name, value) ∈ table) {entry : String × α}
    (hentry : entry ∈ table) (hname : entry.1 = name) : entry.2 = value := by
  subst hname
  have h₁ := (lookup_eq_some_iff_mem h).mpr hentry
  rw [(lookup_eq_some_iff_mem h).mpr hmem] at h₁
  exact (Option.some.inj h₁).symm

/-- While names are apart, the order of the entries is invisible to a look-up. -/
theorem lookup_perm {table other : List (String × α)} (h : (names table).Nodup)
    (hp : table.Perm other) (name : String) : table.lookup name = other.lookup name := by
  have h' : (names other).Nodup := (hp.map Prod.fst).nodup_iff.mp h
  refine Option.ext fun value => ?_
  rw [lookup_eq_some_iff_mem h, lookup_eq_some_iff_mem h', hp.mem_iff]

/-- While names are apart, tables that read the same have the same entries. -/
theorem perm_of_lookup_eq {table other : List (String × α)} (h : (names table).Nodup)
    (h' : (names other).Nodup) (hlookup : ∀ name, table.lookup name = other.lookup name) :
    table.Perm other := by
  have hnodup : ∀ {entries : List (String × α)}, (names entries).Nodup → entries.Nodup :=
    List.Pairwise.of_map Prod.fst fun _ _ hne heq => hne (congrArg Prod.fst heq)
  refine (List.perm_ext_iff_of_nodup (hnodup h) (hnodup h')).mpr fun ⟨name, value⟩ => ?_
  rw [← lookup_eq_some_iff_mem h, ← lookup_eq_some_iff_mem h', hlookup]

/-! ## Entries side by side -/

theorem names_of_forall₂ {table other : List (String × α)}
    (h : List.Forall₂ (fun x y => x.1 = y.1) table other) : names table = names other := by
  induction h with
  | nil => rfl
  | cons hname _ ih => rw [names_cons, names_cons, hname, ih]

/-- Tables with the same names in the same order have related values under each of them. -/
theorem lookup_of_forall₂ {R : α → α → Prop} {table other : List (String × α)}
    (h : List.Forall₂ (fun x y => x.1 = y.1 ∧ R x.2 y.2) table other) {name : String} {x : α}
    (hx : table.lookup name = some x) : ∃ y, other.lookup name = some y ∧ R x y := by
  induction h with
  | nil => cases hx
  | @cons entry entry' table other hentry _ ih =>
      obtain ⟨key, value⟩ := entry
      obtain ⟨key', value'⟩ := entry'
      obtain ⟨rfl, hvalues⟩ := hentry
      rw [List.lookup_cons] at hx ⊢
      cases hkey : name == key with
      | true =>
          rw [hkey] at hx
          cases hx
          exact ⟨value', rfl, hvalues⟩
      | false =>
          rw [hkey] at hx
          exact ih hx

/-! ## Writing -/

/-- A written table has the written entry and entries that it had before. -/
theorem mem_put {name : String} {value : α} {table : List (String × α)} {entry : String × α}
    (h : entry ∈ put name value table) : entry = (name, value) ∨ entry ∈ table := by
  induction table with
  | nil => exact .inl (List.mem_singleton.mp h)
  | cons first rest ih =>
      obtain ⟨key, old⟩ := first
      rw [put] at h
      split at h
      · next hkey =>
          rw [← hkey]
          exact (List.mem_cons.mp h).imp id (List.mem_cons_of_mem _)
      · rcases List.mem_cons.mp h with rfl | h
        · exact .inr List.mem_cons_self
        · exact (ih h).imp id (List.mem_cons_of_mem _)

theorem put_of_not_mem {name : String} {table : List (String × α)} (h : name ∉ names table)
    (value : α) : put name value table = table ++ [(name, value)] := by
  induction table with
  | nil => rfl
  | cons entry rest ih =>
      obtain ⟨key, old⟩ := entry
      rw [names_cons, List.mem_cons, not_or] at h
      rw [put, if_neg (Ne.symm h.1), ih h.2, List.cons_append]

theorem put_append_self {name : String} {table : List (String × α)} (h : name ∉ names table)
    (old value : α) : put name value (table ++ [(name, old)]) = table ++ [(name, value)] := by
  induction table with
  | nil => simp [put]
  | cons entry rest ih =>
      obtain ⟨key, other⟩ := entry
      rw [names_cons, List.mem_cons, not_or] at h
      rw [List.cons_append, put, if_neg (Ne.symm h.1), ih h.2, List.cons_append]

theorem lookup_append_self {name : String} {table : List (String × α)}
    (h : table.lookup name = none) (value : α) :
    (table ++ [(name, value)]).lookup name = some value := by
  rw [List.lookup_append, h, Option.none_or, List.lookup_cons_self]

theorem lookup_append_of_ne {name other : String} (h : other ≠ name) (table : List (String × α))
    (value : α) : (table ++ [(name, value)]).lookup other = table.lookup other := by
  have hb : (other == name) = false := by simpa using h
  rw [List.lookup_append, List.lookup_cons, hb, List.lookup_nil, Option.or_none]

theorem nodup_names_put {name : String} {value : α} {table : List (String × α)}
    (h : (names table).Nodup) : (names (put name value table)).Nodup := by
  by_cases hmem : name ∈ names table
  · rw [names_put_of_mem hmem]
    exact h
  · rw [names_put_of_not_mem hmem]
    exact List.nodup_append.mpr ⟨h, by simp, by
      intro a ha b hb
      rw [List.mem_singleton] at hb
      rintro rfl
      exact hmem (hb ▸ ha)⟩

theorem nodup_names_append_self {name : String} {table : List (String × α)}
    (h : (names table).Nodup) (hnone : table.lookup name = none) (value : α) :
    (names (table ++ [(name, value)])).Nodup := by
  rw [← put_of_not_mem (lookup_eq_none_iff.mp hnone)]
  exact nodup_names_put h

theorem mem_putAll {table entries : List (String × α)} {entry : String × α}
    (h : entry ∈ putAll table entries) : entry ∈ table ∨ entry ∈ entries := by
  induction entries generalizing table with
  | nil => exact .inl h
  | cons first rest ih =>
      rcases ih h with hmem | hmem
      · exact (mem_put hmem).symm.imp id fun heq : entry = first => heq ▸ List.mem_cons_self
      · exact .inr (List.mem_cons_of_mem _ hmem)

theorem nodup_names_putAll {table : List (String × α)} (h : (names table).Nodup)
    (entries : List (String × α)) : (names (putAll table entries)).Nodup := by
  induction entries generalizing table with
  | nil => exact h
  | cons first rest ih => exact ih (nodup_names_put h)

/-- What the last write under a name wrote is what is read, else what was there. -/
theorem lookup_putAll (name : String) (table entries : List (String × α)) :
    (putAll table entries).lookup name = (entries.reverse.lookup name).or (table.lookup name) := by
  induction entries generalizing table with
  | nil => simp [putAll]
  | cons entry rest ih =>
      have h := ih (put entry.1 entry.2 table)
      simp only [putAll, List.foldl_cons] at h ⊢
      rw [h, List.reverse_cons, List.lookup_append, Option.or_assoc]
      congr 1
      obtain ⟨key, value⟩ := entry
      by_cases hk : name = key
      · subst hk
        simp
      · have hb : (name == key) = false := by simpa using hk
        simp [lookup_put_of_ne hk, List.lookup_cons, hb]

theorem lookup_ofList (name : String) (entries : List (String × α)) :
    (ofList entries).lookup name = entries.reverse.lookup name := by
  simp [ofList, lookup_putAll]

/-- Entries with names of their own are appended as they stand. -/
theorem putAll_eq_append {table entries : List (String × α)}
    (h : (names (table ++ entries)).Nodup) : putAll table entries = table ++ entries := by
  induction entries generalizing table with
  | nil => simp [putAll]
  | cons entry rest ih =>
      have hnot : entry.1 ∉ names table := by
        intro hmem
        rw [names_append, List.nodup_append] at h
        exact h.2.2 _ hmem _ List.mem_cons_self rfl
      have happ : table ++ entry :: rest = (table ++ [entry]) ++ rest := by simp
      rw [happ] at h ⊢
      rw [← ih h, putAll, List.foldl_cons, put_of_not_mem hnot]
      rfl

theorem ofList_eq_self {entries : List (String × α)} (h : (names entries).Nodup) :
    ofList entries = entries := putAll_eq_append (by simpa using h)

/-! ## Mapping the values -/

theorem names_map (f : α → β) (table : List (String × α)) :
    names (table.map (Prod.map id f)) = names table := by
  simp [names, Function.comp_def]

theorem put_map (f : α → β) (name : String) (value : α) (table : List (String × α)) :
    put name (f value) (table.map (Prod.map id f))
      = (put name value table).map (Prod.map id f) := by
  induction table with
  | nil => rfl
  | cons entry rest ih =>
      obtain ⟨key, old⟩ := entry
      by_cases hk : key = name
      · simp [put, hk]
      · simp [put, hk, ih]

theorem putAll_map (f : α → β) (table entries : List (String × α)) :
    putAll (table.map (Prod.map id f)) (entries.map (Prod.map id f))
      = (putAll table entries).map (Prod.map id f) := by
  induction entries generalizing table with
  | nil => rfl
  | cons entry rest ih =>
      have h := ih (put entry.1 entry.2 table)
      rw [← put_map] at h
      exact h

/-- Values may be mapped before or after a table is made of them. -/
theorem ofList_map (f : α → β) (entries : List (String × α)) :
    ofList (entries.map (Prod.map id f)) = (ofList entries).map (Prod.map id f) :=
  putAll_map f [] entries

/-! ## Removing -/

theorem erase_of_not_mem {name : String} {table : List (String × α)} (h : name ∉ names table) :
    erase name table = table := by
  induction table with
  | nil => rfl
  | cons entry rest ih =>
      obtain ⟨key, old⟩ := entry
      rw [names_cons, List.mem_cons, not_or] at h
      rw [erase, if_neg (Ne.symm h.1), ih h.2]

/-- Behind entries of other names, a removal works on the rest alone. -/
theorem erase_append {name : String} {table : List (String × α)} (h : name ∉ names table)
    (rest : List (String × α)) : erase name (table ++ rest) = table ++ erase name rest := by
  induction table with
  | nil => rfl
  | cons entry others ih =>
      obtain ⟨key, old⟩ := entry
      rw [names_cons, List.mem_cons, not_or] at h
      rw [List.cons_append, erase, if_neg (Ne.symm h.1), ih h.2, List.cons_append]

theorem erase_perm {name : String} {table : List (String × α)} (h : (names table).Nodup) :
    (erase name table).Perm (table.filter fun entry => entry.1 != name) := by
  induction table with
  | nil => exact .refl _
  | cons entry rest ih =>
      obtain ⟨key, old⟩ := entry
      rw [names_cons, List.nodup_cons] at h
      by_cases hk : key = name
      · subst hk
        have hkeep : rest.filter (fun entry => entry.1 != key) = rest :=
          List.filter_eq_self.mpr fun entry hentry => by
            have hne : entry.1 ≠ key := fun heq => h.1 (heq ▸ mem_names hentry)
            simpa using hne
        rw [erase, if_pos rfl, List.filter_cons, if_neg (by simp), hkeep]
        -- the last entry moves to the front of what is left
        cases hlast : rest.getLast? with
        | none =>
            rw [List.getLast?_eq_none_iff] at hlast
            subst hlast
            exact .refl _
        | some last =>
            obtain ⟨front, rfl⟩ := List.getLast?_eq_some_iff.mp hlast
            have hmove : (front ++ [last]).Perm ([last] ++ front) := List.perm_append_comm
            simpa using hmove.symm
      · rw [erase, if_neg hk, List.filter_cons, if_pos (by simpa using hk)]
        exact (ih h.2).cons _

theorem nodup_names_erase {name : String} {table : List (String × α)} (h : (names table).Nodup) :
    (names (erase name table)).Nodup :=
  ((erase_perm h).map Prod.fst).nodup_iff.mpr (h.sublist (List.filter_sublist.map Prod.fst))

theorem mem_erase {name : String} {table : List (String × α)} (h : (names table).Nodup)
    {entry : String × α} : entry ∈ erase name table ↔ entry ∈ table ∧ entry.1 ≠ name := by
  rw [(erase_perm h).mem_iff, List.mem_filter, bne_iff_ne]

theorem lookup_erase_self {name : String} {table : List (String × α)} (h : (names table).Nodup) :
    (erase name table).lookup name = none := by
  refine lookup_eq_none_iff.mpr fun hmem => ?_
  obtain ⟨entry, hentry, hname⟩ := List.mem_map.mp hmem
  exact ((mem_erase h).mp hentry).2 hname

theorem lookup_erase_of_ne {name other : String} {table : List (String × α)}
    (h : (names table).Nodup) (hne : other ≠ name) :
    (erase name table).lookup other = table.lookup other := by
  have hf : (names (table.filter fun entry => entry.1 != name)).Nodup :=
    h.sublist (List.filter_sublist.map Prod.fst)
  refine Option.ext fun value => ?_
  rw [lookup_perm (nodup_names_erase h) (erase_perm h), lookup_eq_some_iff_mem hf,
    lookup_eq_some_iff_mem h, List.mem_filter]
  simp [hne]

end RunTable.Table
