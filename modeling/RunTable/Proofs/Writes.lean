import RunTable.Proofs.Frame
import RunTable.Proofs.Outcomes

/-!
# Several writes to one row

A compute stage evaluates all its expressions on the row as it came and then writes the values, one
after the other. The order is of no consequence while the written paths are out of each other's way:
each is clear in the row, and none lies above another. What was shown for a single write then holds
for all of them together, since a write keeps the paths that are still to be written clear.
-/

namespace RunTable

open Outcome

namespace Document

variable {doc other value : Json} {path name : String} {paths : List String} {q : List String}
  {writes : List (String × Json)}

/-- Writes values at paths, one after the other. -/
def setAll (writes : List (String × Json)) (doc : Json) : Json :=
  writes.foldl (fun doc (path, value) => set path value doc) doc

theorem setAll_cons (write : String × Json) (writes : List (String × Json)) (doc : Json) :
    setAll (write :: writes) doc = setAll writes (set write.1 write.2 doc) := rfl

/-- Paths that lie clear in a document and none of which lies above another. -/
structure Writable (paths : List String) (doc : Json) : Prop where
  clear : ∀ path ∈ paths, Clear (Path.segments path) doc
  level : ∀ p ∈ paths, ∀ q ∈ paths, Path.segments p <+: Path.segments q → p = q

theorem Writable.mono {others : List String} (h : Writable paths doc)
    (hsub : ∀ path ∈ others, path ∈ paths) : Writable others doc where
  clear := fun path hpath => h.clear path (hsub path hpath)
  level := fun p hp q hq => h.level p (hsub p hp) q (hsub q hq)

/-- A write to one of the paths keeps all of them clear. -/
theorem Writable.set (h : Writable paths doc) (hpath : path ∈ paths) (value : Json) :
    Writable paths (set path value doc) where
  clear := fun q hq => (h.clear q hq).setAt (h.clear path hpath)
    (fun hpre => congrArg Path.segments (h.level path hpath q hq hpre)) value
  level := h.level

theorem Writable.setAll (h : Writable paths doc)
    (hsub : ∀ path ∈ Table.names writes, path ∈ paths) : Writable paths (setAll writes doc) := by
  induction writes generalizing doc with
  | nil => exact h
  | cons write writes ih =>
      rw [Table.names_cons] at hsub
      rw [setAll_cons]
      exact ih (h.set (hsub _ List.mem_cons_self) write.2)
        fun path hpath => hsub path (List.mem_cons_of_mem _ hpath)

theorem Writable.tail {write : String × Json} (h : Writable (Table.names (write :: writes)) doc) :
    Writable (Table.names writes) (Document.set write.1 write.2 doc) :=
  (h.set List.mem_cons_self write.2).mono fun _ hpath => List.mem_cons_of_mem _ hpath

theorem Writable.apart (h : Writable paths doc) {p q : String} (hp : p ∈ paths) (hq : q ∈ paths)
    (hne : p ≠ q) : Path.Apart (Path.segments p) (Path.segments q) :=
  ⟨fun hpre => hne (h.level p hp q hq hpre), fun hpre => hne (h.level q hq p hp hpre).symm⟩

/-- Writes leave a document the same at every path apart from theirs. -/
theorem sameAt_setAll (h : Writable (Table.names writes) doc)
    (hq : ∀ path ∈ Table.names writes, Path.Apart (Path.segments path) q) :
    SameAt q (setAll writes doc) doc := by
  induction writes generalizing doc with
  | nil => exact .refl q doc
  | cons write writes ih =>
      rw [Table.names_cons] at hq
      rw [setAll_cons]
      refine (ih h.tail fun p hp => hq p (List.mem_cons_of_mem _ hp)).trans ?_
      exact sameAt_setAt (h.clear _ List.mem_cons_self) (hq _ List.mem_cons_self) write.2

/-- The same writes made to two documents keep them the same wherever they were. -/
theorem SameAt.setAll (h : Writable (Table.names writes) doc)
    (h' : Writable (Table.names writes) other) (hq : SameAt q doc other) :
    SameAt q (setAll writes doc) (setAll writes other) := by
  induction writes generalizing doc other with
  | nil => exact hq
  | cons write writes ih =>
      rw [setAll_cons, setAll_cons]
      refine ih h.tail h'.tail ?_
      exact hq.setAt (h.clear _ List.mem_cons_self) (h'.clear _ List.mem_cons_self) write.2

theorem getAt?_setAll_congr (h : Writable (Table.names writes) doc)
    (h' : Writable (Table.names writes) other) (hq : getAt? q doc = getAt? q other) :
    getAt? q (setAll writes doc) = getAt? q (setAll writes other) := by
  induction writes generalizing doc other with
  | nil => exact hq
  | cons write writes ih =>
      rw [setAll_cons, setAll_cons]
      refine ih h.tail h'.tail ?_
      exact getAt?_setAt_congr (h.clear _ List.mem_cons_self) (h'.clear _ List.mem_cons_self) hq _

/-- What is written at a path is read there, if nothing else is written there. -/
theorem get?_setAll (h : Writable (Table.names writes) doc) (hmem : path ∈ Table.names writes)
    (hvalue : ∀ write ∈ writes, write.1 = path → write.2 = value) :
    get? path (setAll writes doc) = some value := by
  induction writes generalizing doc with
  | nil => cases hmem
  | cons write writes ih =>
      rw [setAll_cons]
      by_cases hrest : path ∈ Table.names writes
      · exact ih h.tail hrest fun w hw => hvalue w (List.mem_cons_of_mem _ hw)
      · obtain rfl : path = write.1 := (List.mem_cons.mp hmem).resolve_right hrest
        have happart : ∀ p ∈ Table.names writes,
            Path.Apart (Path.segments p) (Path.segments write.1) := fun p hp =>
          h.apart (List.mem_cons_of_mem _ hp) List.mem_cons_self fun heq => hrest (heq ▸ hp)
        rw [get?, (sameAt_setAll h.tail happart).1, hvalue write List.mem_cons_self rfl]
        exact get?_set write.1 value doc

/-- A member under whose name no write begins stays as it is. -/
theorem lookup_setAll_of_not_mem
    (h : ∀ path ∈ Table.names writes, (Path.segments path).head? ≠ some name) :
    (setAll writes doc).members.lookup name = doc.members.lookup name := by
  induction writes generalizing doc with
  | nil => rfl
  | cons write writes ih =>
      rw [Table.names_cons] at h
      rw [setAll_cons, ih fun path hpath => h path (List.mem_cons_of_mem _ hpath), set]
      have hhead := h write.1 List.mem_cons_self
      cases hsegs : Path.segments write.1 with
      | nil => exact absurd hsegs (Path.segments_ne_nil _)
      | cons s rest =>
          rw [hsegs] at hhead
          have hne : name ≠ s := fun heq => hhead (by rw [heq]; rfl)
          exact lookup_setAt_of_ne hne rest write.2 doc

theorem set_isObject (path : String) (value doc : Json) : ∃ ms, set path value doc = .obj ms := by
  rw [set]
  cases hsegs : Path.segments path with
  | nil => exact absurd hsegs (Path.segments_ne_nil _)
  | cons s rest => exact ⟨_, setAt_cons s rest value doc⟩

theorem setAll_isObject (h : ∃ ms, doc = .obj ms) (writes : List (String × Json)) :
    ∃ ms, setAll writes doc = .obj ms := by
  induction writes generalizing doc with
  | nil => exact h
  | cons write writes ih => exact ih (set_isObject write.1 write.2 doc)

theorem nodup_names_setAll (h : (Table.names doc.members).Nodup)
    (writes : List (String × Json)) : (Table.names (setAll writes doc).members).Nodup := by
  induction writes generalizing doc with
  | nil => exact h
  | cons write writes ih =>
      exact ih (nodup_names_setAt h (Path.segments_ne_nil _) write.2)

/-! ## Writes that meet what is in their way -/

/-- Apart from the written paths, writes leave what is read as it was or take it away. -/
theorem getAt?_setAll_or_none
    (hq : ∀ path ∈ Table.names writes, Path.Apart (Path.segments path) q) :
    getAt? q (setAll writes doc) = getAt? q doc ∨ getAt? q (setAll writes doc) = none := by
  induction writes generalizing doc with
  | nil => exact .inl rfl
  | cons write writes ih =>
      rw [Table.names_cons] at hq
      rw [setAll_cons]
      rcases ih fun path hpath => hq path (List.mem_cons_of_mem _ hpath) with heq | hnone
      · rw [heq, set]
        exact (getAt?_setAt_cases (hq _ List.mem_cons_self) write.2 doc).imp id And.left
      · exact .inr hnone

theorem getAt?_setAll_of_noSharedArray
    (hq : ∀ path ∈ Table.names writes, Path.Apart (Path.segments path) q)
    (hno : ∀ path ∈ Table.names writes, NoSharedArray (Path.segments path) q doc) :
    getAt? q (setAll writes doc) = getAt? q doc := by
  induction writes generalizing doc with
  | nil => rfl
  | cons write writes ih =>
      rw [Table.names_cons] at hq hno
      have happart := hq write.1 List.mem_cons_self
      rw [setAll_cons, set, ih (fun path hpath => hq path (List.mem_cons_of_mem _ hpath))
        fun path hpath => (hno path (List.mem_cons_of_mem _ hpath)).setAt happart write.2]
      exact getAt?_setAt_of_noSharedArray happart (hno _ List.mem_cons_self) write.2

/-- What is read after writes was read before, or a write touches the place. -/
theorem exists_write_of_getAt?_setAll (h : (getAt? q (setAll writes doc)).isSome) :
    (getAt? q doc).isSome ∨ ∃ path ∈ Table.names writes, ¬ Path.Apart (Path.segments path) q := by
  by_cases hq : ∀ path ∈ Table.names writes, Path.Apart (Path.segments path) q
  · left
    rcases getAt?_setAll_or_none hq with heq | hnone
    · rwa [heq] at h
    · rw [hnone] at h
      cases h
  · right
    obtain ⟨path, hpath⟩ := not_forall.mp hq
    exact ⟨path, Classical.not_imp.mp hpath⟩

/-- Writes that do not reach down to a place make no array there. -/
theorem getAt?_setAll_ne_arr (hq : ∀ path ∈ Table.names writes, ¬ Path.segments path <+: q)
    (h : ∀ items, getAt? q doc ≠ some (.arr items)) :
    ∀ items, getAt? q (setAll writes doc) ≠ some (.arr items) := by
  induction writes generalizing doc with
  | nil => exact h
  | cons write writes ih =>
      rw [Table.names_cons] at hq
      rw [setAll_cons, set]
      refine ih (fun path hpath => hq path (List.mem_cons_of_mem _ hpath)) fun items hread => ?_
      have hnot := hq write.1 List.mem_cons_self
      by_cases hpre : q <+: Path.segments write.1
      · obtain ⟨members, hobj⟩ := getAt?_setAt_of_prefix hpre
          (fun heq => hnot (heq ▸ List.prefix_refl _)) write.2 doc
        rw [hobj] at hread
        cases hread
      · rcases getAt?_setAt_cases ⟨hnot, hpre⟩ write.2 doc with heq | ⟨hnone, -⟩
        · exact h items (heq ▸ hread)
        · rw [hnone] at hread
          cases hread

/-- Writes keep a value in its place, if none of them is made above it. -/
theorem isSome_getAt?_setAll (h : Writable (Table.names writes) doc)
    (hq : ∀ path ∈ Table.names writes, Path.segments path <+: q → Path.segments path = q)
    (hread : (getAt? q doc).isSome) : (getAt? q (setAll writes doc)).isSome := by
  induction writes generalizing doc with
  | nil => exact hread
  | cons write writes ih =>
      rw [Table.names_cons] at hq
      rw [setAll_cons]
      refine ih h.tail (fun path hpath => hq path (List.mem_cons_of_mem _ hpath)) ?_
      rw [set]
      by_cases hself : Path.segments write.1 = q
      · rw [← hself, getAt?_setAt]
        rfl
      · by_cases hpre : q <+: Path.segments write.1
        · obtain ⟨members, hobj⟩ := getAt?_setAt_of_prefix hpre (Ne.symm hself) write.2 doc
          rw [hobj]
          rfl
        · have happart : Path.Apart (Path.segments write.1) q :=
            ⟨fun hup => hself (hq write.1 List.mem_cons_self hup), hpre⟩
          rwa [getAt?_setAt_of_apart (h.clear _ List.mem_cons_self) happart]

theorem isSome_get?_setAll_of_mem (h : Writable (Table.names writes) doc)
    (hpath : path ∈ Table.names writes) : (get? path (setAll writes doc)).isSome := by
  induction writes generalizing doc with
  | nil => cases hpath
  | cons write writes ih =>
      rw [setAll_cons]
      by_cases hrest : path ∈ Table.names writes
      · exact ih h.tail hrest
      · obtain rfl : path = write.1 := (List.mem_cons.mp hpath).resolve_right hrest
        refine isSome_getAt?_setAll h.tail (fun other hother hpre => ?_) ?_
        · exact congrArg Path.segments (h.level other (List.mem_cons_of_mem _ hother) write.1
            List.mem_cons_self hpre)
        · rw [set, getAt?_setAt]
          rfl

end Document

/-! ## Compute stages -/

variable {fields : List (String × Expr)} {row result : Json} {cells : List (String × Json)}

/-- Computed members are the values of their expressions, under the listed names. -/
theorem evalFields_eq_ok : Expr.evalFields fields row = .ok cells
    ↔ List.Forall₂ (fun field cell => cell.1 = field.1 ∧ field.2.eval row = .ok cell.2)
        fields cells := by
  induction fields generalizing cells with
  | nil =>
      rw [List.forall₂_nil_left_iff, Expr.evalFields]
      exact ⟨fun h => (Except.ok.inj h).symm, fun h => h ▸ rfl⟩
  | cons field fields ih =>
      obtain ⟨name, expr⟩ := field
      rw [List.forall₂_cons_left_iff, Expr.evalFields, bind_eq_ok]
      constructor
      · rintro ⟨v, hv, hrest⟩
        obtain ⟨rest, hfields, hret⟩ := bind_eq_ok.mp hrest
        cases hret
        exact ⟨(name, v), rest, ⟨rfl, hv⟩, ih.mp hfields, rfl⟩
      · rintro ⟨⟨_, v⟩, rest, ⟨rfl, hv⟩, hfields, rfl⟩
        exact ⟨v, hv, bind_eq_ok.mpr ⟨rest, ih.mpr hfields, rfl⟩⟩

theorem evalFields_congr {other : Json}
    (h : ∀ field ∈ fields, field.2.eval row = field.2.eval other) :
    Expr.evalFields fields row = Expr.evalFields fields other := by
  induction fields with
  | nil => rfl
  | cons field fields ih =>
      have hfield : field.2.eval row = field.2.eval other := h field List.mem_cons_self
      rw [Expr.evalFields, Expr.evalFields, hfield,
        ih fun f hf => h f (List.mem_cons_of_mem _ hf)]

theorem mem_evalFields (h : Expr.evalFields fields row = .ok cells) {cell : String × Json}
    (hcell : cell ∈ cells) :
    ∃ field ∈ fields, cell.1 = field.1 ∧ field.2.eval row = .ok cell.2 := by
  rw [evalFields_eq_ok] at h
  induction h with
  | nil => cases hcell
  | cons hfirst _ ih =>
      rcases List.mem_cons.mp hcell with rfl | hcell
      · exact ⟨_, List.mem_cons_self, hfirst⟩
      · obtain ⟨field, hfield, hvalue⟩ := ih hcell
        exact ⟨field, List.mem_cons_of_mem _ hfield, hvalue⟩

theorem evalFields_ok (h : ∀ entry ∈ fields, ∃ v, entry.2.eval row = .ok v) :
    ∃ cells, Expr.evalFields fields row = .ok cells := by
  induction fields with
  | nil => exact ⟨[], rfl⟩
  | cons entry fields ih =>
      obtain ⟨v, hv⟩ := h entry List.mem_cons_self
      obtain ⟨cells, hcells⟩ := ih fun other hother => h other (List.mem_cons_of_mem _ hother)
      exact ⟨(entry.1, v) :: cells, by
        rw [Expr.evalFields, hv, ok_bind, hcells]
        rfl⟩

theorem names_evalFields (h : Expr.evalFields fields row = .ok cells) :
    Table.names cells = fields.map (·.1) := by
  rw [evalFields_eq_ok] at h
  induction h with
  | nil => rfl
  | cons hcell _ ih => rw [Table.names_cons, List.map_cons, hcell.1, ih]

/-- Some of the values are computed where all of them are. -/
theorem evalFields_filter (h : Expr.evalFields fields row = .ok cells) (keep : String → Bool) :
    Expr.evalFields (fields.filter fun field => keep field.1) row
      = .ok (cells.filter fun cell => keep cell.1) := by
  rw [evalFields_eq_ok] at h ⊢
  induction h with
  | nil => exact .nil
  | cons hcell _ ih =>
      rw [List.filter_cons, List.filter_cons, hcell.1]
      split
      · exact .cons hcell ih
      · exact ih

/-- A compute stage writes the computed values into the row. -/
theorem computeFields_eq_ok : computeFields fields row = .ok result
    ↔ ∃ cells, Expr.evalFields fields row = .ok cells ∧ result = Document.setAll cells row := by
  rw [computeFields, bind_eq_ok]
  refine exists_congr fun cells => and_congr_right fun _ => ?_
  exact ⟨fun h => (Except.ok.inj h).symm, fun h => h ▸ rfl⟩

end RunTable
