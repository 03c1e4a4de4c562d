import RunTable.Proofs.StrippedFields

/-!
# The value that is read and the values that are tested

Rows are sorted and shown by the one value that is read at a path, and they are filtered by all the
values that are tested there. A table where the two had nothing to do with each other would sort by
a column and filter it by another one.

A read follows one branch, at an array the item that a segment names by its position. A filter
follows that branch too, and beside it, at an array, each object that the array holds. So what is
read is always tested, and the two come apart at arrays above the end of the path and nowhere else.
-/

namespace RunTable.Document

variable {p : List String} {doc value : Json}

/-- What a value contributes at the end of a path is tested there, if it is the value that is
read. -/
theorem leaves_subset_candidatesAt (h : getAt? p doc = some value) :
    leaves value ⊆ candidatesAt p doc := by
  induction p generalizing doc with
  | nil =>
      cases h
      exact List.Subset.refl _
  | cons s rest ih =>
      obtain ⟨child, hchild, hrest⟩ := Option.bind_eq_some_iff.mp h
      have hmem : child ∈ children s doc := by
        cases doc with
        | obj members => exact Option.mem_toList.mpr hchild
        | arr items => exact List.mem_append_left _ (Option.mem_toList.mpr hchild)
        | _ => cases hchild
      exact fun leaf hleaf => List.mem_flatMap.mpr ⟨child, hmem, ih hrest hleaf⟩

/-- Without an array above its end, nothing else is tested at a path than what is read there
contributes. -/
theorem candidatesAt_of_noArrayAbove (h : NoArrayAbove p doc) :
    candidatesAt p doc = (getAt? p doc).elim [] leaves := by
  have hend := (direct_of_no_array h).candidatesAt_append []
  rwa [List.append_nil] at hend

/-- The value that is read at a path is tested there, and so are its items if it is an array. If no
array stands above the end of the path, these are all, the items in order and in front of the array,
and nothing is tested where nothing is read. -/
theorem reading_is_tested (path : String) (doc : Json) :
    (∀ value, get? path doc = some value → value ∈ candidates path doc
      ∧ ∀ items, value = .arr items → ∀ item ∈ items, item ∈ candidates path doc)
    ∧ (NoArrayAbove (Path.segments path) doc → candidates path doc
        = match get? path doc with
          | none => []
          | some (.arr items) => items ++ [.arr items]
          | some value => [value]) := by
  refine ⟨fun value hread => ?_, fun harrays => ?_⟩
  · have htested : leaves value ⊆ candidates path doc := leaves_subset_candidatesAt hread
    refine ⟨mem_candidatesAt hread, fun items hitems item hitem => ?_⟩
    subst hitems
    exact htested (List.mem_append_left _ hitem)
  · rw [candidates, candidatesAt_of_noArrayAbove harrays, get?]
    cases getAt? (Path.segments path) doc with
    | none => rfl
    | some value => cases value <;> rfl

/-- An array below objects, and a value below that array, where more is tested than is read. -/
theorem reading_is_tested_of_array :
    let items : List Json := [.obj [("c", .int 1)], .obj [("c", .int 2)]]
    let doc : Json := .obj [("a", .obj [("b", .arr items)])]
    get? "a.b" doc = some (.arr items) ∧ NoArrayAbove (Path.segments "a.b") doc
      ∧ candidates "a.b" doc = items ++ [.arr items]
      ∧ get? "a.b.0.c" doc = some (.int 1) ∧ .int 1 ∈ candidates "a.b.0.c" doc
      ∧ get? "a.b.c" doc = none ∧ candidates "a.b.c" doc = [.int 1, .int 2] := by
  intro items doc
  have hread : get? "a.b" doc = some (.arr items) := rfl
  have hbelow : get? "a.b.0.c" doc = some (.int 1) := rfl
  have harrays : NoArrayAbove (Path.segments "a.b") doc := by
    have hsegments : Path.segments "a.b" = ["a", "b"] := by decide
    rw [hsegments]
    intro front hfront hne read
    -- above the end are the root and the object below it
    rcases front with _ | ⟨s, _ | ⟨t, rest⟩⟩
    · simp [getAt?, doc]
    · rw [(List.cons_prefix_cons.mp hfront).1]
      simp [getAt?, child?, doc]
    · exact absurd (hfront.eq_of_length_le (by simp)) hne
  refine ⟨hread, harrays, ?_, hbelow, ((reading_is_tested "a.b.0.c" doc).1 _ hbelow).1, rfl, rfl⟩
  rw [(reading_is_tested "a.b" doc).2 harrays, hread]

end RunTable.Document
