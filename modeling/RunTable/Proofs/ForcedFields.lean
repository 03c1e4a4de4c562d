import RunTable.Proofs.ShownRows

/-!
# Fields that are read only on the way

A filter or a sort makes a request read fields that nobody selected. How far such a field is gone
from the rows again depends on what lies around it.

Where no field that was forced earlier holds both the field and something selected, the field goes,
and its surroundings go with it up to where something is selected. The exception has a reason. A
forced field above a selected one is read as a whole and cannot be stripped, so what lies below it
stays, unless it was forced before and is stripped on its own; and such a removal does not enter
arrays. What remains above selected paths are objects. They are shown because a selected or a forced
field had a value there, above or below.
-/

namespace RunTable

open Outcome MetricJoin

namespace Request

variable {request : Request} {settings : Settings} {catalog : Catalog} {now : Instant}
  {store : Store} {foreign : List Json} {run base full whole : Json} {response : Response}
  {field path top : String} {front : List String}

/-! ## Hidden places -/

/-- The fields that the filter or the sort of a request refers to. -/
def wantedFields (request : Request) (catalog : Catalog) : List String :=
  request.filterFields.names ++ (request.sortField catalog).toList

/-- Whether a place is that of a field of the filter or the sort or lies above one, and has nothing
to do with the identifier or with a selected path. -/
structure IsHidden (request : Request) (catalog : Catalog) (path : String) : Prop where
  wanted : ∃ field ∈ request.wantedFields catalog, Path.covers path field = true
  sparesId : Path.covers Field.id path = false
  apart : ∀ shown ∈ request.selection catalog, Path.Apart (Path.segments path) (Path.segments shown)

/-- Whether one of some fields lies above a place and above a selected path. -/
def Shelters (request : Request) (catalog : Catalog) (fields : List String) (path : String) :
    Prop :=
  ∃ field ∈ fields, Path.isAncestor field path = true
    ∧ ∃ shown ∈ request.selection catalog, Path.isAncestor field shown = true

/-- A field of the filter or the sort is read through itself, a selected field, or one of the
filter. -/
theorem exists_reader (hselects : request.selection catalog ≠ [])
    (hfield : field ∈ request.wantedFields catalog) (hid : field ≠ Field.id) :
    ∃ top ∈ (request.needs catalog).fields.included, Path.covers top field = true
      ∧ (top ∈ request.selection catalog ∨ top ∈ request.filterFields.names ∨ top = field) := by
  have hexplicit : (FieldSets.ofSelection (request.selection catalog)).isExplicit = true := by
    obtain ⟨shown, hshown⟩ := List.exists_mem_of_ne_nil _ hselects
    exact FieldSets.isExplicit_iff.mpr ⟨shown, NameSet.mem_ofList.mpr hshown⟩
  have hselected : ∀ top ∈ (FieldSets.ofSelection (request.selection catalog)).included,
      top ∈ request.selection catalog := fun _ htop => NameSet.mem_ofList.mp htop
  rw [fields_needs, forcedFields]
  rcases List.mem_append.mp hfield with hfilter | hsort
  · rw [List.append_assoc, List.append_assoc]
    obtain ⟨top, htop, hcovers, horigin⟩ := FieldSets.exists_reader hexplicit hfilter hid
    exact ⟨top, htop, hcovers, horigin.imp (hselected top) .inl⟩
  · rw [List.append_assoc]
    obtain ⟨top, htop, hcovers, horigin⟩ := FieldSets.exists_reader hexplicit hfield hid
    refine ⟨top, htop, hcovers, horigin.imp (hselected top) fun hmem => ?_⟩
    -- the sort field is the only one behind those of the filter
    refine (List.mem_append.mp hmem).imp id fun htop => ?_
    rw [Option.mem_toList] at hsort htop
    exact Option.some.inj (htop.symm.trans hsort)

theorem mem_selection_or_forced (h : field ∈ (request.needs catalog).fields.included) :
    field ∈ request.selection catalog ∨ field ∈ request.forcedFields catalog := by
  rw [fields_needs] at h
  exact (FieldSets.mem_of_mem_included h).imp NameSet.mem_ofList.mp id

/-- A hidden place is stripped, unless a field of the filter shelters it. -/
theorem Unclashing.exists_stripPath (h : request.Unclashing settings catalog store)
    (hselects : request.selection catalog ≠ []) (hhidden : request.IsHidden catalog path)
    (hopen : ¬ request.Shelters catalog request.filterFields.names path) :
    ∃ stripped ∈ (request.needs catalog).fields.stripPaths, Path.covers stripped path = true := by
  have hshows := shows_needs request catalog
  have hsegs : ∀ field ∈ (request.needs catalog).fields.stripped, ∀ s ∈ Path.segments field,
      s ≠ "" := fun _ => h.segments_stripped
  obtain ⟨⟨field, hfield, hcovers⟩, hsparesId, happart⟩ := hhidden
  have hpre := Path.covers_iff.mp hcovers
  have hid : field ≠ Field.id := by
    rintro rfl
    have heq : Path.segments path = Path.segments Field.id := by
      refine hpre.eq_of_length_le ?_
      rw [segments_id]
      exact List.length_pos_of_ne_nil (Path.segments_ne_nil path)
    have hcoversId : Path.covers Field.id path = true :=
      Path.covers_iff.mpr (heq ▸ List.prefix_refl _)
    rw [hcoversId] at hsparesId
    cases hsparesId
  obtain ⟨top, htop, htopCovers, horigin⟩ := exists_reader hselects hfield hid
  -- the field that reads it and the place lie on one way, so one is above the other
  have hway := List.prefix_or_prefix_of_prefix hpre (Path.covers_iff.mp htopCovers)
  have hunselected : top ∉ request.selection catalog := fun hmem =>
    hway.elim (happart top hmem).1 (happart top hmem).2
  by_cases hstripped : top ∈ (request.needs catalog).fields.stripped
  · rcases hway with hbelow | habove
    · exact hshows.exists_stripPath hsegs hstripped (Path.covers_iff.mpr hbelow)
        fun shown hshown => (happart shown hshown).1
    · obtain ⟨stripped, hmem, hstrips⟩ := hshows.exists_stripPath hsegs hstripped
        (Path.covers_iff.mpr (List.prefix_refl _))
        fun shown hshown => ((hshows.stripped top hstripped).2 shown hshown).1
      exact ⟨stripped, hmem, Path.covers_trans hstrips (Path.covers_iff.mpr habove)⟩
  · rcases hshows.kept top (FieldSets.mem_kept.mpr ⟨htop, hstripped⟩) with hmem | hshelters
    · exact absurd hmem hunselected
    -- what is kept shelters a selected path, and then it shelters the place as well
    · obtain ⟨shown, hshown, hholds⟩ := hshelters
      have hnot : ¬ Path.segments path <+: Path.segments top := fun hbelow =>
        (happart shown hshown).1 (hbelow.trans (Path.isAncestor_iff.mp hholds).1)
      have habove := hway.resolve_left hnot
      have hancestor : Path.isAncestor top path = true :=
        Path.isAncestor_iff.mpr ⟨habove, fun heq => hnot (heq ▸ List.prefix_refl _)⟩
      rcases horigin with hmem | hfilter | rfl
      · exact absurd hmem hunselected
      · exact absurd ⟨top, hfilter, hancestor, shown, hshown, hholds⟩ hopen
      · exact absurd hpre hnot

/-! ## Arrays on the way

A removal is kept off by an array only. Where nothing of a row was read as a whole, it was put
together from objects; elsewhere it has the arrays of the run. -/

theorem isExplicit_of_selects (h : request.selection catalog ≠ []) :
    (request.needs catalog).fields.isExplicit = true := by
  rw [isExplicit_needs, Bool.not_eq_true', List.isEmpty_eq_false_iff]
  exact h

theorem exists_copied_of_inPlay (hselects : request.selection catalog ≠ [])
    (hfield : field ∈ request.fieldsInPlay catalog) :
    ∃ top ∈ Projection.copied (request.needs catalog).fields.included,
      Path.covers top field = true :=
  exists_copied (isExplicit_of_selects hselects) (mem_forcedFields_of_inPlay hfield)

/-- Where nothing was copied as a whole, no array stands in the full row. -/
theorem Unclashing.getAt?_fullRow_ne_arr (h : request.Unclashing settings catalog store)
    (hselects : request.selection catalog ≠ []) (hrun : run ∈ store.documents settings.runs)
    (hbase : request.baseRow settings catalog now run = .ok base)
    (hjoined : request.fullRow catalog foreign base = .ok full) (hfront : front ≠ [])
    (htable : ¬ Path.segments tableField <+: front)
    (hcopied : ∀ top ∈ Projection.copied (request.needs catalog).fields.included,
      ¬ Path.segments top <+: front) :
    ∀ items, Document.getAt? front full ≠ some (.arr items) := by
  have hkeeps := h.keepsId run hrun
  -- a column is read, so what lies below it was copied
  have hinPlay : ∀ field ∈ request.fieldsInPlay catalog, ¬ Path.segments field <+: front := by
    intro field hfield hpre
    obtain ⟨top, htop, hcovers⟩ := exists_copied_of_inPlay hselects hfield
    exact hcopied top htop ((Path.covers_iff.mp hcovers).trans hpre)
  have hshown : ∀ items, Document.getAt? front (request.shownRow catalog run)
      ≠ some (.arr items) := by
    rw [shownRow, if_pos (isExplicit_of_selects hselects), Projection.apply_keep]
    refine Document.getAt?_setAll_ne_arr (fun path hpath =>
      hcopied path (Projection.names_copies hkeeps.sparesId_included hpath)) fun items hread => ?_
    cases front with
    | nil => exact hfront rfl
    | cons s front => cases hread
  have hbaseArr : ∀ items, Document.getAt? front base ≠ some (.arr items) := by
    obtain ⟨cells, hcells, rfl⟩ := hkeeps.baseRow_eq_ok.mp hbase
    refine Document.getAt?_setAll_ne_arr (fun path hpath => ?_) hshown
    rw [names_evalFields hcells] at hpath
    obtain ⟨entry, hentry, rfl⟩ := List.mem_map.mp hpath
    exact hinPlay _ (name_mem_derivedFields hentry).2
  obtain ⟨cells, hcells, rfl⟩ := (h.fullRow_eq_ok hrun hbase).mp hjoined
  split
  · refine Document.getAt?_setAll_ne_arr (fun path hpath => ?_) fun items => ?_
    · rw [names_columnFields hcells] at hpath
      obtain ⟨column, hcolumn, rfl⟩ := List.mem_map.mp hpath
      exact hinPlay _ (mem_metricColumns.mp hcolumn).2
    · have hone : ∀ value doc, Document.set tableField value doc
          = Document.setAll [(tableField, value)] doc := fun _ _ => rfl
      rw [withTable_eq_set (h.isRun_baseRow hrun hbase).1, hone]
      refine Document.getAt?_setAll_ne_arr (fun path hpath => ?_) hbaseArr items
      rw [List.mem_singleton.mp hpath]
      exact htable
  · exact hbaseArr

/-- What was copied as a whole above a hidden place and a selected path was forced, and shelters the
place. -/
theorem IsHidden.shelters {copied shown : String} (hhidden : request.IsHidden catalog path)
    (hmem : copied ∈ Projection.copied (request.needs catalog).fields.included)
    (hshown : shown ∈ request.selection catalog)
    (hpath : Path.segments copied <+: Path.segments path)
    (hholds : Path.segments copied <+: Path.segments shown) :
    copied ∈ request.forcedFields catalog
      ∧ request.Shelters catalog (request.forcedFields catalog) path := by
  have hcopied : copied ∈ (request.needs catalog).fields.included := by
    rcases List.mem_cons.mp hmem with rfl | hmem
    · have hsparesId := hhidden.sparesId
      rw [Path.covers_iff.mpr hpath] at hsparesId
      cases hsparesId
    · exact (NameSet.mem_roots.mp (List.mem_filter.mp hmem).1).1
  have hunselected : copied ∉ request.selection catalog := fun hselected =>
    (hhidden.apart copied hselected).2 hpath
  have hforced := (mem_selection_or_forced hcopied).resolve_left hunselected
  refine ⟨hforced, copied, hforced, Path.isAncestor_iff.mpr ⟨hpath, ?_⟩, shown, hshown,
    Path.isAncestor_iff.mpr ⟨hholds, ?_⟩⟩
  · intro heq
    exact (hhidden.apart shown hshown).1 (heq ▸ hholds)
  · intro heq
    exact (hhidden.apart shown hshown).2 (heq ▸ hpath)

/-- The table of series does not lie above a hidden place. -/
theorem Unclashing.table_not_above (h : request.Unclashing settings catalog store)
    (hhidden : request.IsHidden catalog path) :
    ¬ Path.segments tableField <+: Path.segments path := by
  obtain ⟨field, hfield, hcovers⟩ := hhidden.wanted
  have hplay : field ∈ request.fieldsInPlay catalog := by
    rw [fieldsInPlay, List.append_assoc]
    exact List.mem_append_right _ hfield
  exact fun hpre => (h.apart_table (.inl hplay)).1 (hpre.trans (Path.covers_iff.mp hcovers))

/-- Below a forced field the full row reads what the run with all columns reads. -/
theorem Unclashing.getAt?_fullRow_of_forced (h : request.Unclashing settings catalog store)
    (hrun : run ∈ store.documents settings.runs)
    (hbase : request.baseRow settings catalog now run = .ok base)
    (hjoined : request.fullRow catalog foreign base = .ok full)
    (hwhole : request.wholeRow settings catalog now foreign run = .ok whole)
    (hforced : field ∈ request.forcedFields catalog) (hpre : Path.segments field <+: front)
    (hnil : front ≠ []) (htable : ¬ Path.segments tableField <+: front) :
    Document.getAt? front full = Document.getAt? front whole := by
  have happart : Path.Apart (Path.segments tableField) front := by
    refine ⟨htable, fun hpre => htable ?_⟩
    rw [segments_tableField] at hpre ⊢
    exact hpre.eq_of_length_le (List.length_pos_of_ne_nil hnil) ▸ List.prefix_refl _
  have hshown : Document.getAt? front (request.shownRow catalog run)
      = Document.getAt? front run := by
    obtain ⟨rest, rfl⟩ := hpre
    have hread : Document.get? field (request.shownRow catalog run) = Document.get? field run :=
      (h.keepsId run hrun).get?_shownRow (.inr hforced)
    rw [Document.getAt?_append, Document.getAt?_append]
    exact congrArg (Option.bind · _) hread
  exact (h.sameAt_wholeRow hrun hbase hjoined hwhole happart).1 hshown

/-- Nothing keeps off the removal of what is stripped at or above a hidden place. -/
theorem Unclashing.noArrayAbove_stripped (h : request.Unclashing settings catalog store)
    (hselects : request.selection catalog ≠ []) (hhidden : request.IsHidden catalog path)
    (hrun : run ∈ store.documents settings.runs)
    (hbase : request.baseRow settings catalog now run = .ok base)
    (hjoined : request.fullRow catalog foreign base = .ok full)
    (hwhole : request.wholeRow settings catalog now foreign run = .ok whole)
    (harrays : request.Shelters catalog (request.forcedFields catalog) path →
      ∀ shown ∈ request.selection catalog,
        Document.NoSharedArray (Path.segments path) (Path.segments shown) whole)
    (htop : top ∈ request.strippedPaths catalog) (hcovers : Path.covers top path = true) :
    Document.NoArrayAbove (Path.segments top) full := by
  have htopPre := Path.covers_iff.mp hcovers
  have htable := h.table_not_above hhidden
  have hstrip : top ∈ (request.needs catalog).fields.stripPaths := by
    refine (mem_strippedPaths.mp htop).resolve_right fun hjoin => htable ?_
    rw [← hjoin.2]
    exact htopPre
  intro front hfront hne items hread
  by_cases hnil : front = []
  · subst hnil
    obtain ⟨ms, rfl⟩ := h.isObject_fullRow hrun hbase hjoined
    cases hread
  have hfrontPre := hfront.trans htopPre
  have htableFront : ¬ Path.segments tableField <+: front := fun hpre =>
    htable (hpre.trans hfrontPre)
  -- above what is stripped there is always something selected
  obtain ⟨shown, hshown, hholds⟩ := ((shows_needs request catalog).of_mem_stripPaths
    (fun _ => h.segments_stripped) hstrip).2.2 front hnil hfront hne
  by_cases hcopied : ∃ copied ∈ Projection.copied (request.needs catalog).fields.included,
      Path.segments copied <+: front
  · -- what was copied as a whole shelters the place, and the array would stand in the run
    obtain ⟨copied, hmem, hpre⟩ := hcopied
    obtain ⟨hforced, hshelters⟩ := hhidden.shelters hmem hshown (hpre.trans hfrontPre)
      (hpre.trans hholds)
    have hsame := h.getAt?_fullRow_of_forced hrun hbase hjoined hwhole hforced hpre hnil htableFront
    exact harrays hshelters shown hshown front hfrontPre hholds items (hsame ▸ hread)
  · exact h.getAt?_fullRow_ne_arr hselects hrun hbase hjoined hnil htableFront
      (fun copied hmem hpre => hcopied ⟨copied, hmem, hpre⟩) items hread

/-- A hidden place is gone from the row, unless a field of the filter shelters it or an array kept
it off being removed. -/
theorem Unclashing.get?_stripRow_of_hidden (h : request.Unclashing settings catalog store)
    (hselects : request.selection catalog ≠ []) (hhidden : request.IsHidden catalog path)
    (hopen : ¬ request.Shelters catalog request.filterFields.names path)
    (hrun : run ∈ store.documents settings.runs) (hfull : full.namesApart = true)
    (hbase : request.baseRow settings catalog now run = .ok base)
    (hjoined : request.fullRow catalog foreign base = .ok full)
    (hwhole : request.wholeRow settings catalog now foreign run = .ok whole)
    (harrays : request.Shelters catalog (request.forcedFields catalog) path →
      ∀ shown ∈ request.selection catalog,
        Document.NoSharedArray (Path.segments path) (Path.segments shown) whole) :
    Document.get? path (request.stripRow catalog full) = none := by
  obtain ⟨stripped, hstripped, hcovers⟩ := h.exists_stripPath hselects hhidden hopen
  refine getAt?_stripRow_of_prefix hfull (mem_strippedPaths.mpr (.inl hstripped))
    (Path.covers_iff.mp hcovers) fun root hroot hrootCovers => ?_
  exact h.noArrayAbove_stripped hselects hhidden hrun hbase hjoined hwhole harrays hroot
    (Path.covers_trans hrootCovers hcovers)

/-! ## Objects that stay

What a row shows was written into it at a copied field or at a column. -/

/-- A field that something is written at in a row: a column, or a copied field that the run has. -/
def IsSource (request : Request) (settings : Settings) (catalog : Catalog) (now : Instant)
    (run : Json) (field : String) : Prop :=
  field ∈ (request.needs catalog).metricColumns.map (·.name)
    ∨ field ∈ (request.derivedFields settings catalog now).map (·.1)
    ∨ field ∈ Projection.copied (request.needs catalog).fields.included
      ∧ (Document.get? field run).isSome

theorem inPlay_of_column
    (h : field ∈ (request.needs catalog).metricColumns.map (·.name)) :
    field ∈ request.fieldsInPlay catalog := by
  obtain ⟨column, hcolumn, rfl⟩ := List.mem_map.mp h
  exact (mem_metricColumns.mp hcolumn).2

theorem inPlay_of_derived
    (h : field ∈ (request.derivedFields settings catalog now).map (·.1)) :
    field ∈ request.fieldsInPlay catalog := by
  obtain ⟨entry, hentry, rfl⟩ := List.mem_map.mp h
  exact (name_mem_derivedFields hentry).2

/-- What is read of a full row comes from a source at, above or below the place. -/
theorem Unclashing.exists_source (h : request.Unclashing settings catalog store)
    (hselects : request.selection catalog ≠ []) (hrun : run ∈ store.documents settings.runs)
    (hbase : request.baseRow settings catalog now run = .ok base)
    (hjoined : request.fullRow catalog foreign base = .ok full) (hfront : front ≠ [])
    (htable : Path.Apart (Path.segments tableField) front)
    (hread : (Document.getAt? front full).isSome) :
    ∃ field, request.IsSource settings catalog now run field
      ∧ ¬ Path.Apart (Path.segments field) front := by
  have hshown : (Document.getAt? front (request.shownRow catalog run)).isSome →
      ∃ field, request.IsSource settings catalog now run field
        ∧ ¬ Path.Apart (Path.segments field) front := by
    rw [shownRow, if_pos (isExplicit_of_selects hselects), Projection.apply_keep]
    intro hsome
    rcases Document.exists_write_of_getAt?_setAll hsome with hempty | ⟨field, hfield, hnot⟩
    · cases front with
      | nil => exact absurd rfl hfront
      | cons s front => cases hempty
    · obtain ⟨entry, hentry, rfl⟩ := List.mem_map.mp hfield
      refine ⟨entry.1, .inr (.inr ⟨?_, ?_⟩), hnot⟩
      · exact Projection.names_copies (h.keepsId run hrun).sparesId_included hfield
      · rw [(Projection.mem_copies.mp hentry).2]
        rfl
  have hbaseSource : (Document.getAt? front base).isSome →
      ∃ field, request.IsSource settings catalog now run field
        ∧ ¬ Path.Apart (Path.segments field) front := by
    obtain ⟨cells, hcells, rfl⟩ := (h.keepsId run hrun).baseRow_eq_ok.mp hbase
    intro hsome
    rcases Document.exists_write_of_getAt?_setAll hsome with hbefore | ⟨field, hfield, hnot⟩
    · exact hshown hbefore
    · rw [names_evalFields hcells] at hfield
      exact ⟨field, .inr (.inl hfield), hnot⟩
  obtain ⟨cells, hcells, rfl⟩ := (h.fullRow_eq_ok hrun hbase).mp hjoined
  split at hread
  · rcases Document.exists_write_of_getAt?_setAll hread with hbefore | ⟨field, hfield, hnot⟩
    · rw [(sameAt_withTable (h.isRun_baseRow hrun hbase).1 htable).1] at hbefore
      exact hbaseSource hbefore
    · rw [names_columnFields hcells] at hfield
      exact ⟨field, .inl hfield, hnot⟩
  · exact hbaseSource hread

/-- The run with all columns has a value at each source of a row. -/
theorem Unclashing.isSome_wholeRow (h : request.Unclashing settings catalog store)
    (hselects : request.selection catalog ≠ []) (hrun : run ∈ store.documents settings.runs)
    (hwhole : request.wholeRow settings catalog now foreign run = .ok whole)
    (hsource : request.IsSource settings catalog now run field) :
    (Document.get? field whole).isSome := by
  obtain ⟨derived, cells, hderived, hcells, rfl⟩ := wholeRow_eq_ok.mp hwhole
  have hisRun := h.runs run hrun
  have hderivedNames := names_evalFields hderived
  have hcellNames := names_columnFields hcells
  have hwritableDerived := writable_derived hderivedNames hisRun
  have hwritable : Document.Writable (Table.names cells) (Document.setAll derived run) := by
    rw [hcellNames]
    exact h.writable_columns hrun (Document.setAll_isObject ⟨_, hisRun.eq_obj⟩ derived)
      fun name hname hplay _ => lookup_derived hderivedNames hname hplay
  rcases hsource with hcolumn | hderivedField | ⟨hcopied, hread⟩
  · exact Document.isSome_get?_setAll_of_mem hwritable (hcellNames ▸ hcolumn)
  · refine Document.isSome_getAt?_setAll hwritable (fun path hpath hpre => ?_)
      (Document.isSome_get?_setAll_of_mem hwritableDerived (hderivedNames ▸ hderivedField))
    rw [hcellNames] at hpath
    obtain ⟨column, hcolumn, rfl⟩ := List.mem_map.mp hpath
    by_contra hne
    refine (h.apartFields column hcolumn field (inPlay_of_derived hderivedField) ?_).1 hpre
    rintro rfl
    exact hne rfl
  -- a column above a copied field would be read through a copied field above that one
  · have hlevel : ∀ path ∈ request.fieldsInPlay catalog,
        Path.segments path <+: Path.segments field → Path.segments path = Path.segments field := by
      intro path hpath hpre
      obtain ⟨top, htop, hcovers⟩ := exists_copied_of_inPlay hselects hpath
      have htopPre := Path.covers_iff.mp hcovers
      obtain rfl := (Projection.writable_copied _).level top htop field hcopied (htopPre.trans hpre)
      exact hpre.eq_of_length_le htopPre.length_le
    refine Document.isSome_getAt?_setAll hwritable (fun path hpath =>
      hlevel path (inPlay_of_column (hcellNames ▸ hpath)))
      (Document.isSome_getAt?_setAll hwritableDerived (fun path hpath =>
        hlevel path (inPlay_of_derived (hderivedNames ▸ hpath))) hread)

/-- An object above a selected path is not the identifier, nor part of it. -/
theorem Unclashing.not_id_prefix_of_object (h : request.Unclashing settings catalog store)
    (hrun : run ∈ store.documents settings.runs)
    (hbase : request.baseRow settings catalog now run = .ok base)
    (hjoined : request.fullRow catalog foreign base = .ok full) {shown : String}
    (hshown : shown ∈ request.selection catalog) (habove : Path.isAncestor path shown = true)
    {members : List (String × Json)}
    (hread : Document.getAt? (Path.segments path) full = some (.obj members)) :
    ¬ Path.segments Field.id <+: Path.segments path := by
  intro hpre
  obtain ⟨hshownPre, hne⟩ := Path.isAncestor_iff.mp habove
  rcases h.keepsId run hrun with hscalar | hspares
  -- a scalar is no object, and nothing is read below it
  · obtain ⟨rest, hrest⟩ := hpre
    have hid : Document.get? Field.id full = Document.get? Field.id run :=
      (h.id_fullRow hrun hbase hjoined).2
    rw [← hrest, Document.getAt?_append, ← Document.get?, hid] at hread
    obtain ⟨value, hvalue, hbelow⟩ := Option.bind_eq_some_iff.mp hread
    rw [idOf, Document.getOrNull, hvalue, Option.getD_some] at hscalar
    by_cases hnil : rest = []
    · subst hnil
      cases hbelow
      cases hscalar
    · rw [Document.getAt?_of_isScalar hscalar hnil] at hbelow
      cases hbelow
  · have hbelow : Path.isAncestor Field.id shown = true := by
      refine Path.isAncestor_iff.mpr ⟨hpre.trans hshownPre, ?_⟩
      rintro rfl
      exact hne (Path.segments_injective (hshownPre.eq_of_length_le hpre.length_le))
    rw [hspares shown (inPlay_of_selected hshown)] at hbelow
    cases hbelow

/-- An object above a selected path is shown only where the run with all columns has a value at a
selected or a forced field, which lies at the object, above it or below it. -/
theorem Unclashing.exists_field_of_object (h : request.Unclashing settings catalog store)
    (hrun : run ∈ store.documents settings.runs) (hfull : full.namesApart = true)
    (hbase : request.baseRow settings catalog now run = .ok base)
    (hjoined : request.fullRow catalog foreign base = .ok full)
    (hwhole : request.wholeRow settings catalog now foreign run = .ok whole) {shown : String}
    (hshown : shown ∈ request.selection catalog) (habove : Path.isAncestor path shown = true)
    {members : List (String × Json)}
    (hread : Document.get? path (request.stripRow catalog full) = some (.obj members)) :
    ∃ field ∈ request.selection catalog ++ request.forcedFields catalog,
      (Path.covers field path = true ∨ Path.isAncestor path field = true)
      ∧ (Document.get? field whole).isSome := by
  have hselects : request.selection catalog ≠ [] := List.ne_nil_of_mem hshown
  obtain ⟨hshownPre, -⟩ := Path.isAncestor_iff.mp habove
  have hnil := Path.segments_ne_nil path
  obtain ⟨ms, hms⟩ : ∃ ms, Document.getAt? (Path.segments path) full = some (.obj ms) := by
    rcases getAt?_stripRow_eq_some hfull hread with hsome | ⟨ms, -, hsome, -⟩ <;> exact ⟨_, hsome⟩
  have hid := h.not_id_prefix_of_object hrun hbase hjoined hshown habove hms
  -- a path of one segment that is not above the place is not below it either
  have hsingle : ∀ name, Path.segments name = [name] →
      ¬ Path.segments name <+: Path.segments path →
      Path.Apart (Path.segments name) (Path.segments path) := fun name hname hnot =>
    Path.apart_of_not_covers hname (by
      rw [← Bool.not_eq_true, Path.covers_iff]
      exact hnot)
  have htable := hsingle tableField segments_tableField fun hpre =>
    (h.apart_table (.inl (inPlay_of_selected hshown))).1 (hpre.trans hshownPre)
  obtain ⟨field, hsource, hnot⟩ := h.exists_source hselects hrun hbase hjoined hnil htable
    (by rw [hms]; rfl)
  refine ⟨field, ?_, ?_, h.isSome_wholeRow hselects hrun hwhole hsource⟩
  · rw [List.mem_append]
    rcases hsource with hcolumn | hderived | ⟨hcopied, -⟩
    · exact mem_forcedFields_of_inPlay (inPlay_of_column hcolumn)
    · exact mem_forcedFields_of_inPlay (inPlay_of_derived hderived)
    · rcases List.mem_cons.mp hcopied with rfl | hroot
      · exact absurd (hsingle Field.id segments_id hid) hnot
      · exact mem_selection_or_forced (NameSet.mem_roots.mp (List.mem_filter.mp hroot).1).1
  · by_cases hover : Path.segments field <+: Path.segments path
    · exact .inl (Path.covers_iff.mpr hover)
    · have hunder := Classical.not_not.mp fun hunder => hnot ⟨hover, hunder⟩
      exact .inr (Path.isAncestor_iff.mpr
        ⟨hunder, fun heq => hover (heq ▸ List.prefix_refl _)⟩)

/-- Forced fields do not leak. In each row, what lies at or above a field of the filter or the sort
and is apart from the selection and the identifier is absent, unless a field of the filter shelters
it, or a forced field does and an array stands between them. And an object stands above a selected
path only if the run with all columns has a value at a selected or a forced field there, which is
the object, above it or below it. -/
theorem forced_fields_do_not_leak (h : request.Unclashing settings catalog store)
    (hmode : request.mode ≠ .count) (hselects : request.selection catalog ≠ [])
    (hruns : ∀ run ∈ store.documents settings.runs, run.namesApart = true)
    (hseries : ∀ doc ∈ store.documents settings.metrics, doc.namesApart = true)
    (hresponse : (request.compile settings catalog now).execute store = .ok response) :
    ∃ found : List Json, found.Nodup ∧ (∀ run ∈ found, run ∈ store.documents settings.runs)
      ∧ List.Forall₂ (fun run row => ∃ whole,
          request.wholeRow settings catalog now (store.documents settings.metrics) run = .ok whole
          ∧ (∀ path, request.IsHidden catalog path →
            ¬ request.Shelters catalog request.filterFields.names path →
            (request.Shelters catalog (request.forcedFields catalog) path →
              ∀ shown ∈ request.selection catalog,
                Document.NoSharedArray (Path.segments path) (Path.segments shown) whole) →
            Document.get? path row = none)
          ∧ ∀ path, ∀ shown ∈ request.selection catalog, Path.isAncestor path shown = true →
            ∀ members, Document.get? path row = some (.obj members) →
              ∃ field ∈ request.selection catalog ++ request.forcedFields catalog,
                (Path.covers field path = true ∨ Path.isAncestor path field = true)
                ∧ (Document.get? field whole).isSome)
        found response.rows := by
  obtain ⟨found, hnodup, hmem, hshown⟩ := h.rows_of_execute hmode hresponse
  refine ⟨found, hnodup, hmem, forall₂_imp_of_mem hshown fun run hfound row hrow => ?_⟩
  obtain ⟨base, full, hbase, hjoined, rfl⟩ := hrow
  have hrun := hmem run hfound
  obtain ⟨whole, hwhole⟩ := (h.exists_wholeRow_iff hrun).mpr ⟨base, full, hbase, hjoined⟩
  have hfull := h.namesApart_fullRow hrun (hruns run hrun) hseries hbase hjoined
  exact ⟨whole, hwhole, fun path hhidden hopen harrays =>
      h.get?_stripRow_of_hidden hselects hhidden hopen hrun hfull hbase hjoined hwhole harrays,
    fun path shown hshown habove members hread =>
      h.exists_field_of_object hrun hfull hbase hjoined hwhole hshown habove hread⟩

/-- The row of one setting that was found by another one, two levels below. -/
theorem forced_fields_do_not_leak_of_one :
    let run := Json.obj [("_id", .int 1),
      ("config", .obj [("rate", .int 30), ("batch", .single "size" (.int 8))])]
    let row := Json.obj [("_id", .int 1), ("config", .single "rate" (.int 30))]
    let store : Store := { collections := [("runs", [run])] }
    let catalog : Catalog := {}
    let request : Request := {
      select := ["config.rate"], filter := some (.single "config.batch.size" (.int 8)) }
    (request.compile {} catalog ⟨0, 0⟩).execute store = .ok (.page [row])
      ∧ Document.get? "config.batch.size" row = none ∧ Document.get? "config.batch" row = none
      ∧ ∃ whole, request.wholeRow {} catalog ⟨0, 0⟩ [] run = .ok whole
        ∧ ∃ field ∈ ["config.rate", "config.batch.size"],
          (Path.covers field "config" = true ∨ Path.isAncestor "config" field = true)
          ∧ (Document.get? field whole).isSome := by
  intro run row store catalog request
  let base := Json.obj [("_id", .int 1),
    ("config", .obj [("batch", .single "size" (.int 8)), ("rate", .int 30)])]
  have hposed : request.WellPosed {} catalog store := .of_names (by decide)
  have hbase : request.baseRow {} catalog ⟨0, 0⟩ run = .ok base := by
    subst catalog request run
    rfl
  have hverdict : verdict request.filter base = .ok true := by
    subst request
    rfl
  have hfull : request.fullRow catalog [] base = .ok base := by
    subst catalog request
    rfl
  have hrow : request.stripRow catalog base = row := by
    subst catalog request
    rfl
  have hpage : (request.compile {} catalog ⟨0, 0⟩).execute store = .ok (.page [row]) := by
    rw [← hrow]
    exact (hposed.identifies.joinsBy _).execute_only rfl (by decide) (by decide) rfl (by decide)
      rfl hbase hverdict hfull
  have hselects : request.selection catalog ≠ [] := by decide
  obtain ⟨found, -, hmem, hshown⟩ := forced_fields_do_not_leak hposed.unclashing (by decide)
    hselects (by decide) (by decide) hpage
  obtain ⟨other, others, hfirst, -, rfl⟩ := List.forall₂_cons_right_iff.mp hshown
  obtain rfl : other = run := List.mem_singleton.mp (hmem other List.mem_cons_self)
  obtain ⟨whole, hwhole, hhidden, hobjects⟩ := hfirst
  have hplaces : ∀ path ∈ ["config.batch.size", "config.batch"],
      Path.covers path "config.batch.size" = true ∧ Path.covers Field.id path = false
      ∧ (∀ shown ∈ request.selection catalog,
        Path.Apart (Path.segments path) (Path.segments shown))
      ∧ ∀ field ∈ request.forcedFields catalog, Path.isAncestor field path = false := by decide
  have hgone : ∀ path ∈ ["config.batch.size", "config.batch"], Document.get? path row = none := by
    intro path hpath
    obtain ⟨hcovers, hid, happart, hforced⟩ := hplaces path hpath
    have hopen : ¬ request.Shelters catalog (request.forcedFields catalog) path := by
      rintro ⟨field, hfield, habove, -⟩
      rw [hforced field hfield] at habove
      cases habove
    exact hhidden path ⟨⟨"config.batch.size", by decide, hcovers⟩, hid, happart⟩ hopen
      fun hshelters => absurd hshelters hopen
  have hfields : request.selection catalog ++ request.forcedFields catalog
      = ["config.rate", "config.batch.size"] := by decide
  rw [hfields] at hobjects
  exact ⟨hpage, hgone _ (by simp), hgone _ (by simp), whole, hwhole,
    hobjects "config" "config.rate" (by decide) (by decide) _ rfl⟩

/-- Where fields overlap, some of them stay: below a field that was forced as a whole, in an array
that was, as an object that is left empty, and as an object that is selected itself. -/
theorem forced_fields_leak :
    let catalog : Catalog := {}
    let store := fun (run : Json) => ({ collections := [("runs", [run])] } : Store)
    let answers := fun (request : Request) (run row : Json) =>
      request.Unclashing {} catalog (store run)
        ∧ (request.compile {} catalog ⟨0, 0⟩).execute (store run) = .ok (.page [row])
    (let run := Json.obj [("_id", .int 1), ("config", .obj [("lr", .int 1), ("bs", .int 2)])]
      let request : Request := {
        select := ["config.lr"]
        filter := some (.obj [("config", .single "$ne" .null), ("config.bs", .int 2)]) }
      answers request run run ∧ request.IsHidden catalog "config.bs"
        ∧ Document.get? "config.bs" run = some (.int 2))
    ∧ (let run := Json.obj [("_id", .int 1), ("a", .arr [.int 3, .int 4])]
      let request : Request := {
        select := ["a.1"], filter := some (.single "a.0" (.int 3)), sortBy := some "a" }
      answers request run run ∧ request.IsHidden catalog "a.0"
        ∧ Document.get? "a.0" run = some (.int 3))
    ∧ (let run := Json.obj [("_id", .int 1), ("config", .single "bs" (.int 2))]
      let request : Request := {
        select := ["config.lr"], filter := some (.single "config.bs" (.int 2)) }
      answers request run (.obj [("_id", .int 1), ("config", .obj [])])
        ∧ Path.isAncestor "config" "config.lr" = true ∧ Document.get? "config.lr" run = none)
    ∧ (let run := Json.obj [("_id", .int 1), ("a", .single "b" (.obj []))]
      let request : Request := { select := ["a", "a.b.c"] }
      answers request run run ∧ Path.isAncestor "a.b" "a.b.c" = true
        ∧ ∀ path ∈ request.selection catalog, Path.isAncestor "a.b" path = true →
          Document.get? path run = none) := by
  intro catalog store answers
  -- no columns are computed, so a row is what is read of the run, less what is stripped
  have hanswers : ∀ {request : Request} (run base row : Json),
      request.WellPosed {} catalog (store run) → request.mode = .list ∧ request.skip = 0
        ∧ 0 < request.pageSize {} ∧ request.filterDeferred catalog = false
        ∧ (request.sortField catalog).any catalog.isMetric = false →
      request.baseRow {} catalog ⟨0, 0⟩ run = .ok base ∧ verdict request.filter base = .ok true
        ∧ request.fullRow catalog [] base = .ok base ∧ request.stripRow catalog base = row →
      answers request run row := by
    rintro request run base row hposed ⟨hmode, hskip, hlimit, hfilter, hsort⟩
      ⟨hbase, hverdict, hfull, rfl⟩
    exact ⟨hposed.unclashing, (hposed.identifies.joinsBy _).execute_only hmode hsort hfilter hskip
      hlimit rfl hbase hverdict hfull⟩
  have hhidden : ∀ {request : Request} {field : String}, field ∈ request.wantedFields catalog
      ∧ Path.covers Field.id field = false ∧ (∀ shown ∈ request.selection catalog,
        Path.Apart (Path.segments field) (Path.segments shown)) →
      request.IsHidden catalog field := fun ⟨hwanted, hid, happart⟩ =>
    ⟨⟨_, hwanted, Path.covers_iff.mpr (List.prefix_refl _)⟩, hid, happart⟩
  refine ⟨?_, ?_, ?_, ?_⟩
  · intro run request
    refine ⟨hanswers run run run (.of_names (by decide)) (by decide) ?_, hhidden (by decide), rfl⟩
    subst catalog request run
    exact ⟨rfl, rfl, rfl, rfl⟩
  · intro run request
    refine ⟨hanswers run run run (.of_names (by decide)) (by decide) ?_, hhidden (by decide), rfl⟩
    subst catalog request run
    exact ⟨rfl, rfl, rfl, rfl⟩
  · intro run request
    refine ⟨hanswers run run _ (.of_names (by decide)) (by decide) ?_, by decide, rfl⟩
    subst catalog request run
    exact ⟨rfl, rfl, rfl, rfl⟩
  · intro run request
    refine ⟨hanswers run run run (.of_names (by decide)) (by decide) ?_, by decide, ?_⟩
    · subst catalog request run
      exact ⟨rfl, rfl, rfl, rfl⟩
    · intro path hpath habove
      have hbelow : ∀ path ∈ request.selection catalog, Path.isAncestor "a.b" path = true →
          path = "a.b.c" := by decide
      rw [hbelow path hpath habove]
      rfl

end Request

end RunTable
