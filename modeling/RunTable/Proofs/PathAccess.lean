import RunTable.Proofs.StrippedFields

/-!
# Reading behind a write or a removal

A document is changed at one path and read at another one. At the changed place the read sees the
change. Beside it, where neither path is the other or lies above it, the read sees what it saw
before. A removal keeps this of itself, since it enters objects only and, while names are apart, the
member that moves into the gap is still found under its name. A write may replace what it meets on
its way by an object, and then the only reads that are lost are those of the items of an array.
-/

namespace RunTable.Document

variable {doc : Json} {p : List String}

/-- A removal gives the value that was read at its place. -/
theorem getAt?_eq_some_of_removeAt? {removed : Json × Json} (h : removeAt? p doc = some removed) :
    getAt? p doc = some removed.1 := by
  induction p generalizing doc removed with
  | nil => cases h
  | cons s rest ih =>
      obtain ⟨child, hchild, hgiven⟩ := removeAt?_cons_eq_some h
      cases doc with
      | obj ms =>
          rw [getAt?_obj, show ms.lookup s = some child from hchild, Option.bind_some]
          rcases hgiven with ⟨rfl, heq, -⟩ | ⟨inner, hinner, heq, -⟩
          · rw [heq]
            rfl
          · rw [heq]
            exact ih hinner
      | _ => cases hchild

/-- What is read behind a write: the value at its place, and beside it what was read before, unless
an array stood where the two paths still lead together. -/
structure Written (path : String) (value doc after : Json) : Prop where
  there : get? path after = some value
  beside : ∀ field, Path.Apart (Path.segments path) (Path.segments field) →
    NoSharedArray (Path.segments path) (Path.segments field) doc →
    get? field after = get? field doc

/-- What is read behind a removal that found something: nothing at its place, where the removed
value was read before, and beside it what was read before. -/
structure Removed (path : String) (value doc after : Json) : Prop where
  found : get? path doc = some value
  gone : get? path after = none
  beside : ∀ field, Path.Apart (Path.segments path) (Path.segments field) →
    get? field after = get? field doc

theorem written_set (path : String) (value doc : Json) :
    Written path value doc (set path value doc) where
  there := get?_set path value doc
  beside := fun _ happart hno => getAt?_setAt_of_noSharedArray happart hno value

theorem removed_of_remove? {path : String} {value after : Json} (h : doc.namesApart = true)
    (hremoved : remove? path doc = some (value, after)) : Removed path value doc after := by
  refine ⟨getAt?_eq_some_of_removeAt? hremoved, ?_, fun field happart => ?_⟩
  · rcases getAt?_of_removeAt? h hremoved (Path.segments path) with hunder | hbeside | habove
    · exact hunder.2
    · exact absurd (List.prefix_refl _) hbeside.1.1
    · exact absurd rfl habove.2.1
  · rcases getAt?_of_removeAt? h hremoved (Path.segments field) with hunder | hbeside | habove
    · exact absurd hunder.1 happart.1
    · exact hbeside.2
    · exact absurd habove.1 happart.2

/-- A removal goes through objects, so no array stood above what it found. -/
theorem noArrayAbove_of_removeAt? {removed : Json × Json} (h : doc.namesApart = true)
    (hremoved : removeAt? p doc = some removed) : NoArrayAbove p doc := by
  intro front hfront hne items hread
  rcases getAt?_of_removeAt? h hremoved front with hunder | hbeside | ⟨-, -, ms, -, hobject, -⟩
  · exact hne (hfront.eq_of_length_le hunder.1.length_le)
  · exact hbeside.1.2 hfront
  · rw [hobject] at hread
    cases hread

/-- A removal finds nothing exactly if nothing is read at its place or an array stands above. -/
theorem remove?_eq_none_iff (h : doc.namesApart = true) (path : String) :
    remove? path doc = none
      ↔ (NoArrayAbove (Path.segments path) doc → get? path doc = none) := by
  constructor
  · exact getAt?_of_removeAt?_eq_none (Path.segments_ne_nil path)
  · intro hread
    cases hremoved : remove? path doc with
    | none => rfl
    | some removed =>
        have hnone := hread (noArrayAbove_of_removeAt? h hremoved)
        rw [get?, getAt?_eq_some_of_removeAt? hremoved] at hnone
        cases hnone

/-- The laws of reading, writing and removing. Behind a write, its place holds the value and the
places beside it hold what they held. Behind a removal that gives a value, which is the one that was
read, its place holds nothing and the places beside it hold what they held. A removal that gives
none leaves the document as it is, and it gives none only where nothing is read or an array is
above. -/
theorem path_access_laws (h : doc.namesApart = true) (path : String) :
    (∀ value, Written path value doc (set path value doc))
    ∧ (∀ value after, remove? path doc = some (value, after) →
      Removed path value doc after ∧ remove path doc = after)
    ∧ (remove? path doc = none → remove path doc = doc)
    ∧ (remove? path doc = none
      ↔ (NoArrayAbove (Path.segments path) doc → get? path doc = none)) := by
  refine ⟨fun value => written_set path value doc, fun value after hremoved => ?_, fun hnone => ?_,
    remove?_eq_none_iff h path⟩
  · exact ⟨removed_of_remove? h hremoved, by rw [remove, hremoved]; rfl⟩
  · rw [remove, hnone]
    rfl

/-- A write and a removal below an object that has another member with an array. -/
theorem path_access_laws_of_nested :
    let doc : Json := .obj [("a", .obj [("b", .int 1), ("c", .arr [.int 2, .int 3])]), ("d", .null)]
    doc.namesApart = true
      ∧ get? "a.b" (set "a.b" (.str "x") doc) = some (.str "x")
      ∧ get? "a.c.1" (set "a.b" (.str "x") doc) = get? "a.c.1" doc
      ∧ ∃ after, remove? "a.b" doc = some (.int 1, after) ∧ Removed "a.b" (.int 1) doc after
        ∧ get? "a.c.1" after = get? "a.c.1" doc := by
  intro doc
  have hnames : doc.namesApart = true := by decide
  have happart : Path.Apart (Path.segments "a.b") (Path.segments "a.c.1") := by decide
  have hshared : NoSharedArray (Path.segments "a.b") (Path.segments "a.c.1") doc := by
    have hb : Path.segments "a.b" = ["a", "b"] := by decide
    have hc : Path.segments "a.c.1" = ["a", "c", "1"] := by decide
    rw [hb, hc]
    intro front hfront hfront' items
    -- the two paths lead together to the root and to the object below it
    rcases front with _ | ⟨s, _ | ⟨t, front⟩⟩
    · simp [getAt?, doc]
    · rw [(List.cons_prefix_cons.mp hfront).1]
      simp [getAt?, child?, doc]
    · have ht := (List.cons_prefix_cons.mp (List.cons_prefix_cons.mp hfront).2).1
      have ht' := (List.cons_prefix_cons.mp (List.cons_prefix_cons.mp hfront').2).1
      exact absurd (ht.symm.trans ht') (by decide)
  obtain ⟨hset, hremove, -, -⟩ := path_access_laws hnames "a.b"
  obtain ⟨after, hafter⟩ : ∃ after, remove? "a.b" doc = some (.int 1, after) := ⟨_, rfl⟩
  have hremoved := (hremove _ after hafter).1
  exact ⟨hnames, (hset _).there, (hset _).beside _ happart hshared, after, hafter, hremoved,
    hremoved.beside _ happart⟩

end RunTable.Document
