import RunTable.Proofs.StrippedFields

/-!
# Fields that are forced and paths that are stripped

Fields are forced one after the other, and each time it is decided by what was forced before whether
the field is shown or stripped. No later call turns a decision wrong. A field is stripped only while
nothing that is shown lies below it. From then on it is read, and so is all that lies below it, so
that a field there is no longer added.

What is stripped is taken away with all that surrounds it and holds nothing that is shown. The way
there is followed segment by segment in a text, and the text forgets that it has begun as long as it
is empty. So the dot behind an empty first segment is lost where the way leads on, which it does if
something that is shown begins with an empty segment too. In all other cases the text is the path
that it should be.
-/

namespace RunTable.FieldSets

variable {sets : FieldSets} {selection : List String} {field path : String}

/-! ## Forcing -/

/-- Whether no stripped field lies above one that is shown. -/
def Spares (sets : FieldSets) : Prop :=
  ∀ field ∈ sets.stripped, ∀ shown ∈ sets.kept, Path.isAncestor field shown = false

theorem spares_ofSelection (selection : List String) : Spares (.ofSelection selection) :=
  fun field hfield => absurd hfield (NameSet.not_mem_empty field)

/-- Forcing a further field strips nothing from above a shown one: a new field is not below a
stripped one, which would read it already, and it is not stripped above one that is shown. -/
theorem Spares.force (h : Spares sets) (hread : ∀ field ∈ sets.stripped, field ∈ sets.included)
    (field : String) : Spares (sets.force field) := by
  obtain heq | ⟨hreads, ⟨-, heq⟩ | ⟨hnone, heq⟩⟩ := force_cases sets field
  · rw [heq]
    exact h
  · rw [heq]
    intro above habove shown hshown
    obtain ⟨hmem, hnot⟩ := mem_kept.mp hshown
    rcases NameSet.mem_insert.mp hmem with rfl | hmem
    · rw [← Bool.not_eq_true]
      intro hbelow
      have hcovers : Path.covers above shown = true :=
        Path.covers_iff.mpr (Path.isAncestor_iff.mp hbelow).1
      rw [reads_iff.mpr ⟨above, hread above habove, hcovers⟩] at hreads
      cases hreads
    · exact h above habove shown (mem_kept.mpr ⟨hmem, hnot⟩)
  · rw [heq]
    intro above habove shown hshown
    obtain ⟨hmem, hnot⟩ := mem_kept.mp hshown
    have hold : shown ∈ sets.kept := by
      refine mem_kept.mpr ⟨(NameSet.mem_insert.mp hmem).resolve_left fun hself => ?_,
        fun hstripped => ?_⟩
      · exact hnot (NameSet.mem_insert.mpr (.inl hself))
      · exact hnot (NameSet.mem_insert.mpr (.inr hstripped))
    rcases NameSet.mem_insert.mp habove with rfl | habove
    · exact hnone shown hold
    · exact h above habove shown hold

theorem Shows.spares_foldl_force (hshows : Shows selection sets) (h : Spares sets)
    (forced : List String) : Spares (forced.foldl FieldSets.force sets) := by
  induction forced generalizing sets with
  | nil => exact h
  | cons field forced ih =>
      exact ih (hshows.force field) (h.force (fun f hf => (hshows.stripped f hf).1) field)

/-- What holds of the fields of a selection and those that were forced: what is selected is read and
never stripped, what is stripped is read, what was forced is read by itself or through a field above
it, and no stripped field lies above one that is shown. -/
structure Consistent (selection forced : List String) (sets : FieldSets) : Prop where
  selected : ∀ field ∈ selection, field ∈ sets.included ∧ field ∉ sets.stripped
  stripped : ∀ field ∈ sets.stripped, field ∈ sets.included
  forced : ∀ field ∈ forced, field ≠ Field.id →
    ∃ path ∈ sets.included, Path.covers path field = true
  spared : ∀ field ∈ sets.stripped, ∀ shown ∈ sets.kept, Path.isAncestor field shown = false

/-- Whatever is forced in whichever order, the fields that are read and stripped stay consistent.
Where everything is read, nothing is ever listed. -/
theorem forced_fields_consistent (selection forced : List String) :
    (selection ≠ [] →
      Consistent selection forced (forced.foldl FieldSets.force (.ofSelection selection)))
    ∧ (selection = [] → forced.foldl FieldSets.force (.ofSelection selection) = {}) := by
  refine ⟨fun hne => ?_, fun hnil => ?_⟩
  · have hshows : Shows selection (forced.foldl FieldSets.force (.ofSelection selection)) :=
      (shows_ofSelection selection).foldl_force forced
    have hexplicit : (ofSelection selection).isExplicit = true := by
      obtain ⟨field, hfield⟩ := List.exists_mem_of_ne_nil _ hne
      exact isExplicit_iff.mpr ⟨field, NameSet.mem_ofList.mpr hfield⟩
    exact {
      selected := fun field hfield => mem_kept.mp (hshows.selected_kept hfield)
      stripped := fun field hfield => (hshows.stripped field hfield).1
      forced := fun field hfield hid => reads_iff.mp (reads_foldl_force hexplicit hfield hid)
      spared := (shows_ofSelection selection).spares_foldl_force
        (spares_ofSelection selection) forced }
  · rw [hnil]
    exact foldl_force_of_not_explicit rfl

/-- A field below a selected one, one beside it, and one above both. -/
theorem forced_fields_consistent_of_three :
    ["config.lr"] ≠ [] ∧ Consistent ["config.lr"] ["config.lr.0", "config.bs", "config"]
      (["config.lr.0", "config.bs", "config"].foldl FieldSets.force (.ofSelection ["config.lr"])) :=
  ⟨by decide, (forced_fields_consistent _ _).1 (by decide)⟩

/-! ## Stripping -/

/-- The shortest path at or above a field that is no kept field and has none below it. -/
structure IsShortest (kept : NameSet) (field path : String) : Prop where
  above : Path.covers path field = true
  free : ∀ shown ∈ kept, Path.covers path shown = false
  shortest : ∀ upper, Path.isAncestor upper path = true →
    ∃ shown ∈ kept, Path.covers upper shown = true

/-- Whether the paths that are stripped are the stripped fields, each with as much around it as
holds nothing that is shown. -/
structure StripsExactly (sets : FieldSets) : Prop where
  shortest : ∀ path ∈ sets.stripPaths, ∃ field ∈ sets.stripped, IsShortest sets.kept field path
  covered : ∀ field ∈ sets.stripped, ∃ path ∈ sets.stripPaths, Path.covers path field = true
  spared : ∀ path ∈ sets.stripPaths, ∀ shown ∈ sets.kept, Path.covers path shown = false

theorem mem_stripPaths : path ∈ sets.stripPaths
    ↔ ∃ field ∈ sets.stripped, widen sets.kept.names "" (Path.segments field) = path := by
  rw [stripPaths, NameSet.mem_ofList, List.mem_map]
  rfl

/-- The empty path is above all that begins with an empty segment. -/
theorem covers_empty_iff : Path.covers "" path = true ↔ (Path.segments path).head? = some "" := by
  have hempty : Path.segments "" = [""] := by decide
  rw [Path.covers_iff, hempty]
  constructor
  · rintro ⟨rest, hrest⟩
    rw [← hrest]
    rfl
  · exact Path.prefix_of_head?

theorem head?_of_covers {upper : String} (h : Path.covers upper path = true) :
    (Path.segments upper).head? = (Path.segments path).head? := by
  obtain ⟨rest, hrest⟩ := Path.covers_iff.mp h
  rw [← hrest, List.head?_append_of_ne_nil _ (Path.segments_ne_nil upper)]

/-- A stripped field is neither shown nor above what is shown. -/
theorem Spares.covers_eq_false (h : Spares sets) (hfield : field ∈ sets.stripped) {shown : String}
    (hshown : shown ∈ sets.kept) : Path.covers field shown = false := by
  have hne : field ≠ shown := fun heq => (mem_kept.mp hshown).2 (heq ▸ hfield)
  rw [Path.covers, beq_eq_false_iff_ne.mpr hne, h field hfield shown hshown]
  rfl

/-- A stripped field is widened to the shortest path that it should be, unless it begins with an
empty segment as something that is shown does. -/
theorem Spares.isShortest_widen (h : Spares sets) (hfield : field ∈ sets.stripped)
    (hdots : Path.covers "" field = true → ∀ shown ∈ sets.kept, Path.covers "" shown = false) :
    IsShortest sets.kept field (widen sets.kept.names "" (Path.segments field)) := by
  obtain ⟨s, rest, hcons⟩ : ∃ s rest, Path.segments field = s :: rest :=
    List.exists_cons_of_ne_nil (Path.segments_ne_nil field)
  have hwide : Widened sets.kept.names [s] (Path.segments field)
      (widen sets.kept.names "" (Path.segments field)) := by
    refine widened_widen hcons fun hs => ?_
    rw [hs]
    exact hdots (covers_empty_iff.mpr (by rw [hcons, hs]; rfl))
  have habove := Path.covers_iff.mpr hwide.within
  refine ⟨habove, fun shown hshown => ?_, fun upper hupper => ?_⟩
  · rcases hwide.free with hall | hfree
    · rw [Path.segments_injective hall]
      exact h.covers_eq_false hfield hshown
    · exact hfree shown hshown
  · obtain ⟨hpre, hne⟩ := Path.isAncestor_iff.mp hupper
    have hhead : (Path.segments upper).head? = some s := by
      rw [head?_of_covers (Path.covers_iff.mpr hpre), head?_of_covers habove, hcons]
      rfl
    obtain ⟨shown, hshown, hholds⟩ := hwide.holds (Path.segments upper)
      (Path.prefix_of_head? hhead) hpre (mt Path.segments_injective hne)
    exact ⟨shown, hshown, Path.covers_iff.mpr hholds⟩

/-- No path that is stripped begins with an empty segment, but for the empty path. -/
theorem eq_empty_of_covers_empty (hpath : path ∈ sets.stripPaths)
    (hempty : Path.covers "" path = true) : path = "" := by
  obtain ⟨field, -, rfl⟩ := mem_stripPaths.mp hpath
  have hsegs : ∀ s ∈ Path.segments field, Path.segments s = [s] := fun _ => Path.segments_of_mem
  refine (head?_widen_or hsegs).resolve_right fun hhead => ?_
  rw [covers_empty_iff.mp hempty] at hhead
  simpa using List.find?_some hhead.symm

/-- Whatever is forced in whichever order, what is stripped is exactly the stripped fields with all
around them that holds nothing shown, unless a stripped and a shown field both begin with an empty
segment. In that case it never is. -/
theorem strips_exactly_iff (selection forced : List String) :
    let sets := forced.foldl FieldSets.force (.ofSelection selection)
    StripsExactly sets ↔ ∀ field ∈ sets.stripped, Path.covers "" field = true →
      ∀ shown ∈ sets.kept, Path.covers "" shown = false := by
  intro sets
  have hspares : Spares sets :=
    (shows_ofSelection selection).spares_foldl_force (spares_ofSelection selection) forced
  constructor
  · intro hexact field hfield hempty shown hshown
    -- what covers the field begins with an empty segment, so it is the empty path
    obtain ⟨path, hpath, hcovers⟩ := hexact.covered field hfield
    have hstart : Path.covers "" path = true := by
      rw [covers_empty_iff, head?_of_covers hcovers]
      exact covers_empty_iff.mp hempty
    rw [← eq_empty_of_covers_empty hpath hstart]
    exact hexact.spared path hpath shown hshown
  · intro hdots
    have hshortest : ∀ field ∈ sets.stripped,
        IsShortest sets.kept field (widen sets.kept.names "" (Path.segments field)) :=
      fun field hfield => hspares.isShortest_widen hfield (hdots field hfield)
    refine ⟨fun path hpath => ?_, fun field hfield => ?_, fun path hpath => ?_⟩
    · obtain ⟨field, hfield, rfl⟩ := mem_stripPaths.mp hpath
      exact ⟨field, hfield, hshortest field hfield⟩
    · exact ⟨_, mem_stripPaths.mpr ⟨field, hfield, rfl⟩, (hshortest field hfield).above⟩
    · obtain ⟨field, hfield, rfl⟩ := mem_stripPaths.mp hpath
      exact (hshortest field hfield).free

/-- Two shown fields, one of which begins with an empty segment, and a stripped field that does so:
the other shown field is stripped in its place. -/
theorem strip_paths_lose_dots :
    let sets := [".a"].foldl FieldSets.force (.ofSelection [".b", "a"])
    sets.stripped.names = [".a"] ∧ sets.stripPaths.names = ["a"]
      ∧ "a" ∈ sets.kept ∧ Path.covers "a" ".a" = false
      ∧ ¬ StripsExactly sets := by
  intro sets
  have hstripped : "a" ∈ sets.stripPaths := by decide
  have hkept : "a" ∈ sets.kept := by decide
  refine ⟨by decide, by decide, hkept, by decide, fun hexact => ?_⟩
  have hspared := hexact.spared "a" hstripped "a" hkept
  exact absurd hspared (by decide)

end RunTable.FieldSets
