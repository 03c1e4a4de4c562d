import RunTable.Compile
import RunTable.Proofs.JsonText
import RunTable.Proofs.KeptFields
import RunTable.Proofs.MetricCells
import RunTable.Store

/-!
# The rows that a run becomes

On its way through the pipeline of a request a run is read as a row of its own, gets derived
columns, gets metric columns, and is stripped to what is shown. Each of these steps is a function of
the run alone, and this file says what each step leaves as it was: the identifier always, and a
field whenever nothing that was computed lies in its way.

Whether something does is a question of names, so it is asked once, of the request and the store: a
request is well posed if what is computed for it is apart from what is stored and from what else it
refers to.
-/

namespace RunTable

open Outcome MetricJoin

namespace Request

/-- The fields that a request selects, filters by or sorts by. -/
def fieldsInPlay (request : Request) (catalog : Catalog) : List String :=
  request.selection catalog ++ request.filterFields.names ++ (request.sortField catalog).toList

/-- A request that can be answered from a store without confusion of fields: runs are told apart by
their identifiers, the fields in play have no empty segments and spare the identifier and the fields
of the join, and the metric columns among them are apart from all other fields in play and from all
that is stored. -/
structure WellPosed (request : Request) (settings : Settings) (catalog : Catalog) (store : Store) :
    Prop where
  runs : ∀ run ∈ store.documents settings.runs, IsRun run
  ids : ((store.documents settings.runs).map fun run => (idOf run).text).Nodup
  segments : ∀ field ∈ request.fieldsInPlay catalog, ∀ s ∈ Path.segments field, s ≠ ""
  sparesId : ∀ field ∈ request.fieldsInPlay catalog, Path.isAncestor Field.id field = false
  sparesJoin : ∀ field ∈ request.fieldsInPlay catalog,
    ∀ helper ∈ [refField, hitsField, tableField], Path.covers helper field = false
  series : ∀ column ∈ (request.needs catalog).metricColumns, column.series ≠ unmatchedName
  apartFields : ∀ column ∈ (request.needs catalog).metricColumns,
    ∀ field ∈ request.fieldsInPlay catalog, field ≠ column.name →
      Path.Apart (Path.segments column.name) (Path.segments field)
  apartStored : ∀ column ∈ (request.needs catalog).metricColumns,
    ∀ run ∈ store.documents settings.runs, ∀ path, (Document.get? path run).isSome →
      Path.Apart (Path.segments column.name) (Path.segments path)

/-- Whether the identifier of a run goes through whatever is read of the run: it is a scalar, or no
field in play lies below it. -/
def KeepsId (request : Request) (catalog : Catalog) (run : Json) : Prop :=
  (idOf run).isScalar = true
    ∨ ∀ field ∈ request.fieldsInPlay catalog, Path.isAncestor Field.id field = false

/-- A request whose runs can be followed: they are told apart by their identifiers, and these are
kept by what is read. -/
structure Identifies (request : Request) (settings : Settings) (catalog : Catalog)
    (store : Store) : Prop where
  runs : ∀ run ∈ store.documents settings.runs, IsRun run
  apartIds : ((store.documents settings.runs).map idOf).Nodup
  keepsId : ∀ run ∈ store.documents settings.runs, request.KeepsId catalog run

/-- A request without clashes of names: its runs can be followed, the fields in play have no empty
segments and spare the fields of the join, and the metric columns among them are apart from all
other fields in play and from all that is stored. -/
structure Unclashing (request : Request) (settings : Settings) (catalog : Catalog)
    (store : Store) : Prop extends request.Identifies settings catalog store where
  segments : ∀ field ∈ request.fieldsInPlay catalog, ∀ s ∈ Path.segments field, s ≠ ""
  sparesJoin : ∀ field ∈ request.fieldsInPlay catalog,
    ∀ helper ∈ [refField, hitsField, tableField], Path.covers helper field = false
  apartFields : ∀ column ∈ (request.needs catalog).metricColumns,
    ∀ field ∈ request.fieldsInPlay catalog, field ≠ column.name →
      Path.Apart (Path.segments column.name) (Path.segments field)
  apartStored : ∀ column ∈ (request.needs catalog).metricColumns,
    ∀ run ∈ store.documents settings.runs, ∀ path, (Document.get? path run).isSome →
      Path.Apart (Path.segments column.name) (Path.segments path)

variable {request : Request} {settings : Settings} {catalog : Catalog} {now : Instant}
  {store : Store} {collections : Collections} {foreign : List Json} {run row base : Json}
  {field path name : String} {column : MetricColumn}

/-- Identifiers are different if their texts are, and their texts if they are. -/
theorem nodup_ids_iff {runs : List Json} :
    (runs.map fun run => (idOf run).text).Nodup ↔ (runs.map idOf).Nodup := by
  rw [← List.nodup_map_iff Json.text_injective, List.map_map]
  rfl

theorem Identifies.ids (h : request.Identifies settings catalog store) :
    ((store.documents settings.runs).map fun run => (idOf run).text).Nodup :=
  nodup_ids_iff.mpr h.apartIds

theorem WellPosed.apartIds (h : request.WellPosed settings catalog store) :
    ((store.documents settings.runs).map idOf).Nodup :=
  nodup_ids_iff.mp h.ids

theorem WellPosed.keepsId (h : request.WellPosed settings catalog store) (run : Json) :
    request.KeepsId catalog run := .inr h.sparesId

theorem WellPosed.unclashing (h : request.WellPosed settings catalog store) :
    request.Unclashing settings catalog store where
  runs := h.runs
  apartIds := h.apartIds
  keepsId := fun run _ => h.keepsId run
  segments := h.segments
  sparesJoin := h.sparesJoin
  apartFields := h.apartFields
  apartStored := h.apartStored

theorem WellPosed.identifies (h : request.WellPosed settings catalog store) :
    request.Identifies settings catalog store := h.unclashing.toIdentifies

/-- A request is well posed if all that can be computed of it holds and its metric columns have
names of one segment under which no run has a member. -/
theorem WellPosed.of_names (h : (∀ run ∈ store.documents settings.runs, IsRun run)
    ∧ ((store.documents settings.runs).map fun run => (idOf run).text).Nodup
    ∧ (∀ field ∈ request.fieldsInPlay catalog, (∀ s ∈ Path.segments field, s ≠ "")
      ∧ Path.isAncestor Field.id field = false
      ∧ ∀ helper ∈ [refField, hitsField, tableField], Path.covers helper field = false)
    ∧ ∀ column ∈ (request.needs catalog).metricColumns, column.series ≠ unmatchedName
      ∧ (∀ field ∈ request.fieldsInPlay catalog, field ≠ column.name →
        Path.Apart (Path.segments column.name) (Path.segments field))
      ∧ Path.segments column.name = [column.name]
      ∧ ∀ run ∈ store.documents settings.runs, run.members.lookup column.name = none) :
    request.WellPosed settings catalog store where
  runs := h.1
  ids := h.2.1
  segments := fun field hfield => (h.2.2.1 field hfield).1
  sparesId := fun field hfield => (h.2.2.1 field hfield).2.1
  sparesJoin := fun field hfield => (h.2.2.1 field hfield).2.2
  series := fun column hcolumn => (h.2.2.2 column hcolumn).1
  apartFields := fun column hcolumn => (h.2.2.2 column hcolumn).2.1
  apartStored := fun column hcolumn run hrun path hread => by
    obtain ⟨-, -, hsegments, hnone⟩ := h.2.2.2 column hcolumn
    rw [(h.1 run hrun).eq_obj] at hread
    rw [hsegments]
    exact Document.apart_of_lookup_eq_none (hnone run hrun) (Path.segments_ne_nil path) hread

/-! ## What a request needs -/

theorem mem_fieldsInPlay : field ∈ request.fieldsInPlay catalog
    ↔ ((request.selection catalog).contains field
      || (request.filterFields.names ++ (request.sortField catalog).toList).contains field)
        = true := by
  simp only [fieldsInPlay, List.append_assoc, List.mem_append, Bool.or_eq_true,
    List.contains_iff_mem]

theorem inPlay_of_filter (h : field ∈ request.filterFields.names) :
    field ∈ request.fieldsInPlay catalog :=
  List.mem_append_left _ (List.mem_append_right _ h)

theorem inPlay_of_sort (h : request.sortField catalog = some field) :
    field ∈ request.fieldsInPlay catalog := by
  rw [fieldsInPlay, h]
  exact List.mem_append_right _ List.mem_cons_self

/-- The fields that a request filters or sorts by. -/
def decidingFields (request : Request) (catalog : Catalog) : List String :=
  request.filterFields.names ++ (request.sortField catalog).toList

theorem inPlay_of_deciding (h : field ∈ request.decidingFields catalog) :
    field ∈ request.fieldsInPlay catalog := by
  rw [fieldsInPlay, List.append_assoc]
  exact List.mem_append_right _ h

theorem mem_metricColumns : column ∈ (request.needs catalog).metricColumns
    ↔ column ∈ catalog.metricColumns ∧ column.name ∈ request.fieldsInPlay catalog := by
  rw [mem_fieldsInPlay]
  exact List.mem_filter

theorem duration_needs : (request.needs catalog).derived.duration
    = decide (Field.duration ∈ request.fieldsInPlay catalog) := by
  rw [Bool.eq_iff_iff, decide_eq_true_eq, mem_fieldsInPlay]
  rfl

theorem status_needs : (request.needs catalog).derived.status
    = decide (Field.status ∈ request.fieldsInPlay catalog) := by
  rw [Bool.eq_iff_iff, decide_eq_true_eq, mem_fieldsInPlay]
  rfl

/-- The fields that plans read besides those in play. -/
def supportFields : List String := [Field.metricRefs, Field.startTime, Field.heartbeat]

def forcedFields (request : Request) (catalog : Catalog) : List String :=
  request.filterFields.names ++ (request.sortField catalog).toList
    ++ (if (request.needs catalog).metricColumns.isEmpty then [] else [Field.metricRefs])
    ++ (if (request.needs catalog).derived.any then [Field.startTime, Field.heartbeat] else [])

theorem fields_needs : (request.needs catalog).fields
    = (request.forcedFields catalog).foldl FieldSets.force
      (.ofSelection (request.selection catalog)) := rfl

theorem mem_deciding_of_forced (h : field ∈ request.forcedFields catalog) :
    field ∈ request.decidingFields catalog ∨ field ∈ supportFields := by
  rw [forcedFields] at h
  rcases List.mem_append.mp h with h | h
  · refine (List.mem_append.mp h).imp id fun h => ?_
    split at h
    · cases h
    · rw [List.mem_singleton.mp h]
      decide
  · split at h
    · exact .inr (List.mem_cons_of_mem _ h)
    · cases h

theorem mem_forcedFields (h : field ∈ request.forcedFields catalog) :
    field ∈ request.fieldsInPlay catalog ∨ field ∈ supportFields :=
  (mem_deciding_of_forced h).imp_left inPlay_of_deciding

theorem mem_included (h : path ∈ (request.needs catalog).fields.included) :
    path ∈ request.fieldsInPlay catalog ∨ path ∈ supportFields := by
  rw [fields_needs] at h
  rcases FieldSets.mem_of_mem_included h with h | h
  · left
    rw [fieldsInPlay, List.append_assoc]
    exact List.mem_append_left _ (NameSet.mem_ofList.mp h)
  · exact mem_forcedFields h

theorem mem_forced_of_stripped (h : path ∈ (request.needs catalog).fields.stripped) :
    (path ∈ request.decidingFields catalog ∨ path ∈ supportFields) ∧ path ≠ Field.id := by
  rw [fields_needs] at h
  rcases FieldSets.mem_of_mem_stripped h with h | ⟨h, hne⟩
  · exact absurd h (NameSet.not_mem_empty path)
  · exact ⟨mem_deciding_of_forced h, hne⟩

theorem mem_stripped (h : path ∈ (request.needs catalog).fields.stripped) :
    (path ∈ request.fieldsInPlay catalog ∨ path ∈ supportFields) ∧ path ≠ Field.id :=
  (mem_forced_of_stripped h).imp_left fun hforced => hforced.imp_left inPlay_of_deciding

theorem isExplicit_needs : (request.needs catalog).fields.isExplicit
    = !(request.selection catalog).isEmpty := by
  rw [fields_needs]
  cases hsel : request.selection catalog with
  | nil => rw [FieldSets.foldl_force_of_not_explicit] <;> rfl
  | cons first rest =>
      have hmem : first ∈ (FieldSets.ofSelection (first :: rest)).included :=
        NameSet.mem_ofList.mpr List.mem_cons_self
      exact FieldSets.isExplicit_iff.mpr ⟨first, FieldSets.mem_included_foldl_force hmem⟩

theorem mem_forcedFields_of_inPlay (h : field ∈ request.fieldsInPlay catalog) :
    field ∈ request.selection catalog ∨ field ∈ request.forcedFields catalog := by
  rw [fieldsInPlay, List.append_assoc] at h
  refine (List.mem_append.mp h).imp id fun hmem => ?_
  rw [forcedFields]
  exact List.mem_append_left _ (List.mem_append_left _ hmem)

/-- What a request needs is copied or lies below what is copied. -/
theorem exists_copied (hexplicit : (request.needs catalog).fields.isExplicit = true)
    (h : field ∈ request.selection catalog ∨ field ∈ request.forcedFields catalog) :
    ∃ top ∈ Projection.copied (request.needs catalog).fields.included,
      Path.covers top field = true := by
  by_cases hid : field = Field.id
  · exact ⟨Field.id, List.mem_cons_self, hid ▸ Path.covers_iff.mpr (List.prefix_refl _)⟩
  -- a field is read if a path above it is included, and only the topmost of these are copied
  · have hreads : (request.needs catalog).fields.reads field = true := by
      rcases h with h | h
      · rw [fields_needs]
        exact FieldSets.reads_iff.mpr ⟨field, FieldSets.mem_included_foldl_force
          (NameSet.mem_ofList.mpr h), Path.covers_iff.mpr (List.prefix_refl _)⟩
      · have hsel : (FieldSets.ofSelection (request.selection catalog)).isExplicit = true := by
          rw [isExplicit_needs, Bool.not_eq_true',
            List.isEmpty_eq_false_iff_exists_mem] at hexplicit
          obtain ⟨first, hfirst⟩ := hexplicit
          exact FieldSets.isExplicit_iff.mpr ⟨first, NameSet.mem_ofList.mpr hfirst⟩
        exact FieldSets.reads_foldl_force hsel h hid
    obtain ⟨path, hpath, hcovers⟩ := FieldSets.reads_iff.mp hreads
    obtain ⟨root, hroot, hroots⟩ := NameSet.exists_root hpath
    obtain ⟨top, htop, htops⟩ := Projection.exists_copied (List.mem_cons_of_mem _ hroot)
    exact ⟨top, htop, Path.covers_trans htops (Path.covers_trans hroots hcovers)⟩

/-! ## The row that a run is read as -/

/-- The row that is read of a run: all of it, or the fields that are needed. -/
def shownRow (request : Request) (catalog : Catalog) (run : Json) : Json :=
  if (request.needs catalog).fields.isExplicit then
    (Projection.keep (request.needs catalog).fields.included).apply run
  else run

theorem shownRow_of_selects_all (hall : request.selection catalog = []) (run : Json) :
    request.shownRow catalog run = run :=
  if_neg (by rw [isExplicit_needs, hall]; exact Bool.false_ne_true)

theorem run_inclusionStage (rows : List Json) :
    Pipeline.run collections (request.needs catalog).inclusionStage?.toList rows
      = .ok (rows.map (request.shownRow catalog)) := by
  rw [Needs.inclusionStage?]
  by_cases hexplicit : (request.needs catalog).fields.isExplicit = true
  · have hshown : request.shownRow catalog
        = (Projection.keep (request.needs catalog).fields.included).apply :=
      funext fun run => if_pos hexplicit
    rw [if_pos hexplicit, hshown]
    rfl
  · have hshown : request.shownRow catalog = id := funext fun run => if_neg hexplicit
    rw [if_neg hexplicit, hshown, List.map_id]
    rfl

/-- Whether the filter of a request sees a run through the row that is read of it: all of the run is
read, or each field of the filter is or lies below a field in play that does not branch. -/
def Sees (request : Request) (catalog : Catalog) (run : Json) : Prop :=
  request.selection catalog = [] ∨ ∀ field ∈ request.filterFields.names,
    ∃ path ∈ request.fieldsInPlay catalog, Path.covers path field = true
      ∧ Document.Direct (Path.segments path) run

namespace KeepsId

variable (h : request.KeepsId catalog run)

include h

/-- Below the identifier nothing is read that could get in its way. -/
theorem sparesId_included : Projection.SparesId (request.needs catalog).fields.included run := by
  intro path hpath hbelow
  rcases h with hscalar | hspares
  · obtain ⟨⟨rest, hrest⟩, hne⟩ := Path.isAncestor_iff.mp hbelow
    have hrestNe : rest ≠ [] := fun hnil => by
      rw [hnil, List.append_nil] at hrest
      exact hne (Path.segments_injective hrest)
    rw [idOf, Document.getOrNull, Document.get?] at hscalar
    rw [Document.get?, ← hrest, Document.getAt?_append]
    cases hid : Document.getAt? (Path.segments Field.id) run with
    | none => rfl
    | some value =>
        rw [hid] at hscalar
        exact Document.getAt?_of_isScalar hscalar hrestNe
  · have hnone : ∀ path ∈ supportFields, Path.isAncestor Field.id path = false := by decide
    rcases mem_included hpath with hplay | hsupport
    · rw [hspares path hplay] at hbelow
      cases hbelow
    · rw [hnone path hsupport] at hbelow
      cases hbelow

theorem get?_shownRow
    (hfield : field ∈ request.selection catalog ∨ field ∈ request.forcedFields catalog) :
    Document.get? field (request.shownRow catalog run) = Document.get? field run := by
  rw [shownRow]
  split
  · next hexplicit =>
      obtain ⟨top, htop, hcovers⟩ := exists_copied hexplicit hfield
      exact Projection.get?_apply_keep_of_covers h.sparesId_included htop hcovers
  · rfl

theorem get?_id_shownRow :
    Document.get? Field.id (request.shownRow catalog run) = Document.get? Field.id run := by
  rw [shownRow]
  split
  · exact Projection.get?_apply_keep h.sparesId_included List.mem_cons_self
  · rfl

/-- Where the filter sees a run through what is read of it, it finds what the run holds. -/
theorem sameAt_shownRow (hsees : request.Sees catalog run)
    (hfield : field ∈ request.filterFields.names) :
    Document.SameAt (Path.segments field) (request.shownRow catalog run) run := by
  rw [shownRow]
  split
  · next hexplicit =>
      rcases hsees with hnone | hsees
      · rw [isExplicit_needs, hnone] at hexplicit
        cases hexplicit
      · obtain ⟨path, hpath, hcovers, hdirect⟩ := hsees field hfield
        obtain ⟨top, htop, htops⟩ := exists_copied hexplicit (mem_forcedFields_of_inPlay hpath)
        obtain ⟨rest, hrest⟩ := Path.covers_iff.mp htops
        rw [← hrest] at hdirect
        exact Projection.sameAt_apply_keep h.sparesId_included htop
          (Path.covers_trans htops hcovers) hdirect.append
  · exact .refl _ run

end KeepsId

theorem WellPosed.get?_id_shownRow (h : request.WellPosed settings catalog store) :
    Document.get? Field.id (request.shownRow catalog run) = Document.get? Field.id run :=
  (h.keepsId run).get?_id_shownRow

theorem WellPosed.sameAt_shownRow (h : request.WellPosed settings catalog store)
    (hsees : request.Sees catalog run) (hfield : field ∈ request.filterFields.names) :
    Document.SameAt (Path.segments field) (request.shownRow catalog run) run :=
  (h.keepsId run).sameAt_shownRow hsees hfield

/-- What is read of a run is again a run, with no members that the run does not have. -/
theorem lookup_shownRow (hrun : IsRun run) (hname : run.members.lookup name = none) :
    (request.shownRow catalog run).members.lookup name = none := by
  rw [shownRow]
  split
  · rw [hrun.eq_obj]
    exact Projection.lookup_apply_keep hname
  · exact hname

theorem KeepsId.isRecord_shownRow (h : request.KeepsId catalog run) (hrun : IsRecord run) :
    IsRecord (request.shownRow catalog run) where
  isObject := by
    rw [shownRow]
    split
    · rw [Projection.apply_keep]
      obtain ⟨ms, hms⟩ : ∃ ms, Document.setAll (Projection.copies
          (request.needs catalog).fields.included run) (.obj []) = .obj ms :=
        Document.setAll_isObject ⟨_, rfl⟩ _
      rw [hms]
      rfl
    · exact hrun.isObject
  nodup := by
    rw [shownRow]
    split
    · rw [Projection.apply_keep]
      have hempty : (Table.names (Json.obj []).members).Nodup := List.nodup_nil
      exact Document.nodup_names_setAll hempty _
    · exact hrun.nodup
  identified := by
    have hid : Document.get? Field.id (request.shownRow catalog run) = Document.get? Field.id run :=
      h.get?_id_shownRow
    rw [get?_id, get?_id, Document.member?_eq_lookup, Document.member?_eq_lookup] at hid
    rw [← Table.lookup_isSome_iff, hid, Table.lookup_isSome_iff]
    exact hrun.identified

theorem KeepsId.isRun_shownRow (h : request.KeepsId catalog run)
    (hrun : IsRun run) : IsRun (request.shownRow catalog run) := by
  obtain ⟨isObject, nodup, identified⟩ := h.isRecord_shownRow hrun.isRecord
  exact ⟨isObject, nodup, identified, fun field hfield =>
    Table.lookup_eq_none_iff.mp (lookup_shownRow hrun (hrun.lookup_eq_none hfield))⟩

/-! ## The row with its derived columns -/

/-- The derived columns of a request. -/
def derivedFields (request : Request) (settings : Settings) (catalog : Catalog) (now : Instant) :
    List (String × Expr) :=
  (if Field.duration ∈ request.fieldsInPlay catalog then
      [(Field.duration, Derived.durationExpr)] else [])
    ++ (if Field.status ∈ request.fieldsInPlay catalog then
      [(Field.status, Derived.statusExpr now settings.deadAfterMillis)] else [])

/-- The row of a run before it is filtered. -/
def baseRow (request : Request) (settings : Settings) (catalog : Catalog) (now : Instant)
    (run : Json) : Except EvalError Json :=
  computeFields (request.derivedFields settings catalog now) (request.shownRow catalog run)

theorem run_derivedStage (rows : List Json) :
    Pipeline.run collections
        ((request.needs catalog).derived.stage? now settings.deadAfterMillis).toList rows
      = rows.mapM (computeFields (request.derivedFields settings catalog now)) := by
  have hstage : (request.needs catalog).derived.stage? now settings.deadAfterMillis
      = if (request.derivedFields settings catalog now).isEmpty then none
        else some (.compute (request.derivedFields settings catalog now)) := by
    rw [Derived.stage?, duration_needs, status_needs, derivedFields]
    simp only [decide_eq_true_eq]
  rw [hstage]
  cases hfields : request.derivedFields settings catalog now with
  | nil =>
      have hid : ∀ row ∈ rows, computeFields [] row = .ok (id row) := fun _ _ => rfl
      rw [mapM_ok hid, List.map_id]
      rfl
  | cons field fields => exact Pipeline.run_single

theorem run_baseStages (rows : List Json) :
    Pipeline.run collections ((request.needs catalog).inclusionStage?.toList
        ++ ((request.needs catalog).derived.stage? now settings.deadAfterMillis).toList) rows
      = rows.mapM (request.baseRow settings catalog now) := by
  rw [Pipeline.run_append, run_inclusionStage, ok_bind, run_derivedStage, List.mapM_map]
  rfl

theorem mem_derivedFields {entry : String × Expr} :
    entry ∈ request.derivedFields settings catalog now
      ↔ (entry = (Field.duration, Derived.durationExpr)
          ∨ entry = (Field.status, Derived.statusExpr now settings.deadAfterMillis))
        ∧ entry.1 ∈ request.fieldsInPlay catalog := by
  rw [derivedFields, List.mem_append]
  constructor
  · rintro (h | h)
    · split at h
      · next hplay =>
          rw [List.mem_singleton.mp h]
          exact ⟨.inl rfl, hplay⟩
      · cases h
    · split at h
      · next hplay =>
          rw [List.mem_singleton.mp h]
          exact ⟨.inr rfl, hplay⟩
      · cases h
  · rintro ⟨rfl | rfl, hplay⟩
    · rw [if_pos hplay]
      exact .inl List.mem_cons_self
    · rw [if_pos hplay]
      exact .inr List.mem_cons_self

theorem name_mem_derivedFields {entry : String × Expr}
    (h : entry ∈ request.derivedFields settings catalog now) :
    (entry.1 = Field.duration ∨ entry.1 = Field.status)
      ∧ entry.1 ∈ request.fieldsInPlay catalog := by
  obtain ⟨heq, hplay⟩ := mem_derivedFields.mp h
  exact ⟨heq.imp (congrArg Prod.fst) (congrArg Prod.fst), hplay⟩

theorem head?_derivedFields {cells : List (String × Json)}
    (hcells : Table.names cells = (request.derivedFields settings catalog now).map (·.1)) :
    ∀ path ∈ Table.names cells, ∀ name ∈ [Field.id, refField, hitsField, tableField],
      (Path.segments path).head? ≠ some name := by
  intro path hpath name hname
  rw [hcells] at hpath
  obtain ⟨entry, hentry, rfl⟩ := List.mem_map.mp hpath
  have hduration : ∀ name ∈ [Field.id, refField, hitsField, tableField],
      (Path.segments Field.duration).head? ≠ some name := by decide
  have hstatus : ∀ name ∈ [Field.id, refField, hitsField, tableField],
      (Path.segments Field.status).head? ≠ some name := by decide
  obtain heq | heq := (name_mem_derivedFields hentry).1
  · rw [heq]
    exact hduration name hname
  · rw [heq]
    exact hstatus name hname

/-- The base row of a record is a record with the same identifier. -/
theorem KeepsId.isRecord_baseRow (h : request.KeepsId catalog run) (hrun : IsRecord run)
    (hbase : request.baseRow settings catalog now run = .ok base) :
    IsRecord base ∧ Document.get? Field.id base = Document.get? Field.id run := by
  obtain ⟨cells, hcells, rfl⟩ := computeFields_eq_ok.mp hbase
  have hheads := head?_derivedFields (names_evalFields hcells)
  obtain ⟨hrecord, hid⟩ := (h.isRecord_shownRow hrun).setAll fun path hpath =>
    hheads path hpath _ List.mem_cons_self
  refine ⟨hrecord, ?_⟩
  rw [← h.get?_id_shownRow, get?_id, get?_id, Document.member?_eq_lookup,
    Document.member?_eq_lookup, hid]

theorem KeepsId.isRun_baseRow (h : request.KeepsId catalog run) (hrun : IsRun run)
    (hbase : request.baseRow settings catalog now run = .ok base) :
    IsRun base ∧ Document.get? Field.id base = Document.get? Field.id run := by
  refine ⟨?_, (h.isRecord_baseRow hrun.isRecord hbase).2⟩
  obtain ⟨cells, hcells, rfl⟩ := computeFields_eq_ok.mp hbase
  exact (h.isRun_shownRow hrun).setAll (head?_derivedFields (names_evalFields hcells))

/-- What a derived column is computed from is read of a run. -/
theorem KeepsId.evalFields_shownRow (h : request.KeepsId catalog run) :
    Expr.evalFields (request.derivedFields settings catalog now) (request.shownRow catalog run)
      = Expr.evalFields (request.derivedFields settings catalog now) run := by
  refine evalFields_congr fun entry hentry => ?_
  obtain ⟨heq, hplay⟩ := mem_derivedFields.mp hentry
  have hany : (request.needs catalog).derived.any = true := by
    rw [Derived.any, duration_needs, status_needs, Bool.or_eq_true, decide_eq_true_eq,
      decide_eq_true_eq]
    rcases heq with rfl | rfl
    · exact .inl hplay
    · exact .inr hplay
  have hsupport : ∀ field ∈ [Field.startTime, Field.heartbeat],
      Document.getOrNull field (request.shownRow catalog run) = Document.getOrNull field run := by
    intro field hfield
    refine congrArg (Option.getD · Json.null) (h.get?_shownRow (.inr ?_))
    rw [forcedFields, if_pos hany]
    exact List.mem_append_right _ hfield
  have hstart := hsupport Field.startTime List.mem_cons_self
  have hbeat := hsupport Field.heartbeat (List.mem_cons_of_mem _ List.mem_cons_self)
  rcases heq with rfl | rfl
  · simp only [Derived.durationExpr, Expr.subtract, Expr.eval, hstart, hbeat]
  · have hstatus : Document.getOrNull Field.status (request.shownRow catalog run)
        = Document.getOrNull Field.status run :=
      congrArg (Option.getD · Json.null) (h.get?_shownRow (mem_forcedFields_of_inPlay hplay))
    simp only [Derived.statusExpr, Expr.subtract, Expr.equal, Expr.above, Expr.str, Expr.eval,
      Expr.evalAll, hstart, hbeat, hstatus]

theorem KeepsId.baseRow_eq_ok (h : request.KeepsId catalog run) :
    request.baseRow settings catalog now run = .ok base
      ↔ ∃ cells, Expr.evalFields (request.derivedFields settings catalog now) run = .ok cells
        ∧ base = Document.setAll cells (request.shownRow catalog run) := by
  rw [baseRow, computeFields_eq_ok, h.evalFields_shownRow]

theorem writable_derived {cells : List (String × Json)}
    (hcells : Table.names cells = (request.derivedFields settings catalog now).map (·.1))
    (hrow : IsRun row) : Document.Writable (Table.names cells) row := by
  refine writable_of_undotted ⟨_, hrow.eq_obj⟩ fun path hpath => ?_
  rw [hcells] at hpath
  obtain ⟨entry, hentry, rfl⟩ := List.mem_map.mp hpath
  obtain heq | heq := (name_mem_derivedFields hentry).1 <;> rw [heq] <;> decide

theorem get?_derived {cells : List (String × Json)} {entry : String × Expr}
    (hcells : Expr.evalFields (request.derivedFields settings catalog now) run = .ok cells)
    (hrow : IsRun row) (hentry : entry ∈ request.derivedFields settings catalog now) :
    ∃ value, entry.2.eval run = .ok value
      ∧ Document.get? entry.1 (Document.setAll cells row) = some value := by
  -- the two derived columns have names of their own, so no later write hides the value
  have hunique : ∀ field ∈ request.derivedFields settings catalog now, field.1 = entry.1 →
      field = entry := by
    intro field hfield hname
    have hne : Field.duration ≠ Field.status := by decide
    rcases (mem_derivedFields.mp hfield).1 with rfl | rfl <;>
      rcases (mem_derivedFields.mp hentry).1 with rfl | rfl
    · rfl
    · exact absurd hname hne
    · exact absurd hname.symm hne
    · rfl
  have hnames := names_evalFields hcells
  have hmem : entry.1 ∈ Table.names cells := by
    rw [hnames]
    exact List.mem_map_of_mem hentry
  obtain ⟨write, hwrite, hname⟩ := List.mem_map.mp hmem
  have hvalue : ∀ other ∈ cells, other.1 = entry.1 → entry.2.eval run = .ok other.2 := by
    intro other hother hname
    obtain ⟨field, hfield, heq, heval⟩ := mem_evalFields hcells hother
    rw [← hunique field hfield (heq.symm.trans hname)]
    exact heval
  refine ⟨write.2, hvalue write hwrite hname, ?_⟩
  refine Document.get?_setAll (writable_derived hnames hrow) hmem fun other hother hname' => ?_
  exact Except.ok.inj ((hvalue other hother hname').symm.trans (hvalue write hwrite hname))

/-- The same derived columns keep a run and what is read of it the same wherever they were. -/
theorem KeepsId.sameAt_derived (h : request.KeepsId catalog run) (hrun : IsRun run)
    {cells : List (String × Json)} {q : List String}
    (hcells : Table.names cells = (request.derivedFields settings catalog now).map (·.1))
    (hq : Document.SameAt q (request.shownRow catalog run) run) :
    Document.SameAt q (Document.setAll cells (request.shownRow catalog run))
      (Document.setAll cells run) :=
  hq.setAll (writable_derived hcells (h.isRun_shownRow hrun)) (writable_derived hcells hrun)

theorem KeepsId.getAt?_derived (h : request.KeepsId catalog run) (hrun : IsRun run)
    {cells : List (String × Json)} {q : List String}
    (hcells : Table.names cells = (request.derivedFields settings catalog now).map (·.1))
    (hq : Document.getAt? q (request.shownRow catalog run) = Document.getAt? q run) :
    Document.getAt? q (Document.setAll cells (request.shownRow catalog run))
      = Document.getAt? q (Document.setAll cells run) :=
  Document.getAt?_setAll_congr (writable_derived hcells (h.isRun_shownRow hrun))
    (writable_derived hcells hrun) hq

/-- Derived columns leave the references of a run to its series alone. -/
theorem getOrNull_metricRefs_derived {cells : List (String × Json)}
    (hcells : Table.names cells = (request.derivedFields settings catalog now).map (·.1))
    (hrow : IsRun row) : Document.getOrNull Field.metricRefs (Document.setAll cells row)
      = Document.getOrNull Field.metricRefs row := by
  have happart : ∀ path ∈ Table.names cells,
      Path.Apart (Path.segments path) (Path.segments Field.metricRefs) := by
    intro path hpath
    rw [hcells] at hpath
    obtain ⟨entry, hentry, rfl⟩ := List.mem_map.mp hpath
    obtain heq | heq := (name_mem_derivedFields hentry).1 <;> rw [heq] <;>
      exact Path.apart_of_head_ne (by decide) _ _
  exact congrArg (Option.getD · Json.null)
    (Document.sameAt_setAll (writable_derived hcells hrow) happart).1

/-- The references of a run to its series are those of its base row, if they are followed. -/
theorem KeepsId.getOrNull_metricRefs (h : request.KeepsId catalog run)
    (hrun : IsRun run) (hbase : request.baseRow settings catalog now run = .ok base)
    (hcolumn : column ∈ (request.needs catalog).metricColumns) :
    Document.getOrNull Field.metricRefs base = Document.getOrNull Field.metricRefs run := by
  obtain ⟨cells, hcells, rfl⟩ := h.baseRow_eq_ok.mp hbase
  have hempty : ¬ (request.needs catalog).metricColumns.isEmpty = true := by
    rw [List.isEmpty_iff]
    exact List.ne_nil_of_mem hcolumn
  have hread : Document.get? Field.metricRefs (request.shownRow catalog run)
      = Document.get? Field.metricRefs run := by
    refine h.get?_shownRow (.inr ?_)
    rw [forcedFields, if_neg hempty]
    exact List.mem_append_left _ (List.mem_append_right _ List.mem_cons_self)
  rw [getOrNull_metricRefs_derived (names_evalFields hcells) (h.isRun_shownRow hrun)]
  exact congrArg (Option.getD · Json.null) hread

/-- The metric columns of a run are computed from the run or from its base row alike. -/
theorem KeepsId.evalFields_withTable (h : request.KeepsId catalog run) (hrun : IsRun run)
    (hbase : request.baseRow settings catalog now run = .ok base) (names : List String)
    (foreign : List Json) :
    Expr.evalFields (columnFields (request.needs catalog).metricColumns)
        (withTable names foreign base)
      = Expr.evalFields (columnFields (request.needs catalog).metricColumns)
        (withTable names foreign run) := by
  have hisRun := (h.isRun_baseRow hrun hbase).1
  refine evalFields_congr fun entry hentry => ?_
  obtain ⟨column, hcolumn, rfl⟩ := List.mem_map.mp hentry
  exact eval_columnExpr_withTable hisRun hrun (h.getOrNull_metricRefs hrun hbase hcolumn) (.inl rfl)

theorem lookup_setAll_derived {cells : List (String × Json)}
    (hcells : Table.names cells = (request.derivedFields settings catalog now).map (·.1))
    (hname : name ∈ [Field.duration, Field.status] → name ∉ request.fieldsInPlay catalog) :
    (Document.setAll cells row).members.lookup name = row.members.lookup name := by
  refine Document.lookup_setAll_of_not_mem fun path hpath hhead => ?_
  rw [hcells] at hpath
  obtain ⟨entry, hentry, rfl⟩ := List.mem_map.mp hpath
  obtain ⟨hcases, hplay⟩ := name_mem_derivedFields hentry
  have hsegments : Path.segments entry.1 = [entry.1] := by
    obtain heq | heq := hcases <;> rw [heq] <;> decide
  rw [hsegments] at hhead
  cases hhead
  exact hname (by simpa using hcases) hplay

theorem lookup_derived {cells : List (String × Json)}
    (hcells : Table.names cells = (request.derivedFields settings catalog now).map (·.1))
    (hname : row.members.lookup name = none)
    (hderived : name ∈ [Field.duration, Field.status] → name ∉ request.fieldsInPlay catalog) :
    (Document.setAll cells row).members.lookup name = none := by
  rw [lookup_setAll_derived hcells hderived, hname]

/-! ## The row with its metric columns -/

/-- The row of a run with its metric columns, if any are joined. -/
def fullRow (request : Request) (catalog : Catalog) (foreign : List Json) (base : Json) :
    Except EvalError Json :=
  if (request.needs catalog).join then
    joinRow (request.needs catalog).metricColumns foreign base
  else .ok base

namespace Unclashing

variable (h : request.Unclashing settings catalog store)
  (hcolumn : column ∈ (request.needs catalog).metricColumns)
  (hrun : run ∈ store.documents settings.runs)

include h hcolumn

theorem apart_column (hfield : field ∈ request.fieldsInPlay catalog)
    (hmetric : catalog.isMetric field = false) :
    Path.Apart (Path.segments column.name) (Path.segments field) := by
  refine h.apartFields column hcolumn field hfield ?_
  rintro rfl
  rw [Catalog.isMetric, List.any_eq_false] at hmetric
  exact hmetric column (mem_metricColumns.mp hcolumn).1 (beq_self_eq_true _)

include hrun in
theorem apart_column_id : Path.Apart (Path.segments column.name) (Path.segments Field.id) := by
  refine h.apartStored column hcolumn run hrun Field.id ?_
  rw [get?_id, Document.member?_eq_lookup, Table.lookup_isSome_iff]
  exact (h.runs run hrun).identified

theorem head?_column (hname : name ∈ [refField, hitsField, tableField]) :
    (Path.segments column.name).head? ≠ some name := by
  have hsegments : ∀ name ∈ [refField, hitsField, tableField], Path.segments name = [name] := by
    decide
  exact Path.head?_ne_of_not_covers (hsegments name hname)
    (h.sparesJoin _ (mem_metricColumns.mp hcolumn).2 name hname)

include hrun in
theorem lookup_head_column {s : String} {rest : List String}
    (hsegs : Path.segments column.name = s :: rest) : run.members.lookup s = none := by
  cases hlookup : run.members.lookup s with
  | none => rfl
  | some value =>
      have hs : Path.segments s = [s] := Path.segments_of_mem (by
        rw [hsegs]
        exact List.mem_cons_self)
      have hstored : (Document.get? s run).isSome := by
        rw [(h.runs run hrun).eq_obj, Document.get?_name_obj hs, hlookup]
        rfl
      have happart := h.apartStored column hcolumn run hrun s hstored
      rw [hsegs, hs] at happart
      exact absurd (List.cons_prefix_cons.mpr ⟨rfl, List.nil_prefix⟩) happart.2

/-- A metric column of more than one segment does not begin with a derived column in play. -/
theorem head_column_not_inPlay {s t : String} {rest : List String}
    (hsegs : Path.segments column.name = s :: t :: rest) :
    s ∉ request.fieldsInPlay catalog := by
  intro hs
  have hsingle : Path.segments s = [s] := Path.segments_of_mem (by
    rw [hsegs]
    exact List.mem_cons_self)
  have happart := h.apartFields column hcolumn s hs (by
    rintro rfl
    rw [hsegs] at hsingle
    cases hsingle)
  rw [hsegs, hsingle] at happart
  exact absurd (List.cons_prefix_cons.mpr ⟨rfl, List.nil_prefix⟩) happart.2

end Unclashing

/-- The metric columns can be written into a row that has the members of a run, derived columns and
the table of series. -/
theorem Unclashing.writable_columns (h : request.Unclashing settings catalog store)
    (hrun : run ∈ store.documents settings.runs) (hobj : ∃ ms, row = .obj ms)
    (hrow : ∀ name, run.members.lookup name = none →
      (name ∈ [Field.duration, Field.status] → name ∉ request.fieldsInPlay catalog) →
      name ≠ tableField → row.members.lookup name = none) :
    Document.Writable ((request.needs catalog).metricColumns.map (·.name)) row where
  clear := by
    intro path hpath
    obtain ⟨column, hcolumn, rfl⟩ := List.mem_map.mp hpath
    obtain ⟨ms, rfl⟩ := hobj
    cases hsegs : Path.segments column.name with
    | nil => exact absurd hsegs (Path.segments_ne_nil _)
    | cons s rest =>
        -- a column of one segment may overwrite a derived one; a longer one must find nothing
        cases rest with
        | nil => exact Document.clear_single ms
        | cons t rest =>
            refine Document.clear_of_lookup_eq_none
              (hrow s (h.lookup_head_column hcolumn hrun hsegs) (fun _ => ?_) ?_)
            · exact h.head_column_not_inPlay hcolumn hsegs
            · rintro rfl
              have htable : tableField ∈ [refField, hitsField, tableField] := by simp
              exact h.head?_column hcolumn htable (by rw [hsegs]; rfl)
  level := by
    intro p hp q hq hpre
    obtain ⟨column, hcolumn, rfl⟩ := List.mem_map.mp hp
    obtain ⟨other, hother, rfl⟩ := List.mem_map.mp hq
    by_contra hne
    exact (h.apartFields column hcolumn other.name (mem_metricColumns.mp hother).2
      (Ne.symm hne)).1 hpre

theorem Unclashing.apart_table (h : request.Unclashing settings catalog store)
    (hfield : field ∈ request.fieldsInPlay catalog ∨ field = Field.id) :
    Path.Apart (Path.segments tableField) (Path.segments field) := by
  refine Path.apart_of_not_covers segments_tableField ?_
  rcases hfield with hfield | rfl
  · exact h.sparesJoin field hfield tableField (by simp)
  · decide

/-- What a base row or a row with its table may have besides the members of a run. -/
theorem lookup_baseRow (hrun : IsRun run)
    (hbase : request.baseRow settings catalog now run = .ok base)
    (hname : run.members.lookup name = none)
    (hderived : name ∈ [Field.duration, Field.status] → name ∉ request.fieldsInPlay catalog) :
    base.members.lookup name = none := by
  obtain ⟨cells, hcells, rfl⟩ := computeFields_eq_ok.mp hbase
  exact lookup_derived (names_evalFields hcells) (lookup_shownRow hrun hname) hderived

theorem WellPosed.apart_table (h : request.WellPosed settings catalog store)
    (hfield : field ∈ request.fieldsInPlay catalog ∨ field = Field.id) :
    Path.Apart (Path.segments tableField) (Path.segments field) := h.unclashing.apart_table hfield

namespace Unclashing

variable (h : request.Unclashing settings catalog store) {full : Json}
  (hrun : run ∈ store.documents settings.runs)
  (hbase : request.baseRow settings catalog now run = .ok base)

include h hrun hbase

theorem isRun_baseRow :
    IsRun base ∧ Document.get? Field.id base = Document.get? Field.id run :=
  (h.keepsId run hrun).isRun_baseRow (h.runs run hrun) hbase

theorem writable_columns_withTable {names : List String} :
    Document.Writable ((request.needs catalog).metricColumns.map (·.name))
      (withTable names foreign base) := by
  refine h.writable_columns hrun ⟨_, rfl⟩ fun name hname hderived hne => ?_
  have hlookup := lookup_baseRow (h.runs run hrun) hbase hname hderived
  rw [withTable, Json.members, Table.lookup_append_of_ne hne]
  exact hlookup

/-- The full row is the base row with its table and what is computed of the run for the columns, or
the base row. -/
theorem fullRow_eq_ok : request.fullRow catalog foreign base = .ok full
    ↔ ∃ cells, Expr.evalFields (columnFields (request.needs catalog).metricColumns)
        (withTable (seriesNames (request.needs catalog).metricColumns).names foreign run)
          = .ok cells
      ∧ full = if (request.needs catalog).join then
          Document.setAll cells (withTable
            (seriesNames (request.needs catalog).metricColumns).names foreign base)
        else base := by
  rw [← (h.keepsId run hrun).evalFields_withTable (h.runs run hrun) hbase, fullRow]
  split
  · rw [joinRow, computeFields_eq_ok]
  · next hjoin =>
      have hcolumns : (request.needs catalog).metricColumns = [] := by
        simpa [Needs.join] using hjoin
      rw [hcolumns]
      constructor
      · intro heq
        exact ⟨[], rfl, (Except.ok.inj heq).symm⟩
      · rintro ⟨cells, -, rfl⟩
        rfl

/-- The full row is the same as the base row at each field that is no metric column. -/
theorem sameAt_fullRow (hfull : request.fullRow catalog foreign base = .ok full)
    {q : List String} (htable : Path.Apart (Path.segments tableField) q)
    (hcolumns : ∀ column ∈ (request.needs catalog).metricColumns,
      Path.Apart (Path.segments column.name) q) : Document.SameAt q full base := by
  obtain ⟨cells, hcells, rfl⟩ := (h.fullRow_eq_ok hrun hbase).mp hfull
  have hnames := names_columnFields hcells
  split
  · refine (Document.sameAt_setAll ?_ fun path hpath => ?_).trans
      (sameAt_withTable (h.isRun_baseRow hrun hbase).1 htable)
    · rw [hnames]
      exact h.writable_columns_withTable hrun hbase
    · rw [hnames] at hpath
      obtain ⟨column, hcolumn, rfl⟩ := List.mem_map.mp hpath
      exact hcolumns column hcolumn
  · exact .refl q base

/-- The identifier goes through unchanged, and names stay apart. -/
theorem id_fullRow (hfull : request.fullRow catalog foreign base = .ok full) :
    (Table.names full.members).Nodup
      ∧ Document.get? Field.id full = Document.get? Field.id run := by
  obtain ⟨hisRun, hid⟩ := h.isRun_baseRow hrun hbase
  refine ⟨?_, ?_⟩
  · obtain ⟨cells, -, rfl⟩ := (h.fullRow_eq_ok hrun hbase).mp hfull
    split
    · refine Document.nodup_names_setAll ?_ cells
      exact Table.nodup_names_append_self hisRun.nodup (hisRun.lookup_eq_none (by simp)) _
    · exact hisRun.nodup
  · rw [← hid]
    exact (h.sameAt_fullRow hrun hbase hfull (h.apart_table (.inr rfl))
      fun column hcolumn => h.apart_column_id hcolumn hrun).1

end Unclashing

/-- In a well-posed request the columns are the cells of the run. -/
theorem WellPosed.fullRow_eq_ok (h : request.WellPosed settings catalog store) {full : Json}
    (hrun : run ∈ store.documents settings.runs)
    (hbase : request.baseRow settings catalog now run = .ok base) :
    request.fullRow catalog foreign base = .ok full
    ↔ ∃ cells, CellsOf (seriesNames (request.needs catalog).metricColumns).names foreign run
        (request.needs catalog).metricColumns cells
      ∧ full = if (request.needs catalog).join then
          Document.setAll cells (withTable
            (seriesNames (request.needs catalog).metricColumns).names foreign base)
        else base := by
  rw [h.unclashing.fullRow_eq_ok hrun hbase]
  exact exists_congr fun cells => and_congr_left fun _ =>
    evalFields_columns (h.runs run hrun) h.series

theorem WellPosed.id_fullRow (h : request.WellPosed settings catalog store) {full : Json}
    (hrun : run ∈ store.documents settings.runs)
    (hbase : request.baseRow settings catalog now run = .ok base)
    (hfull : request.fullRow catalog foreign base = .ok full) :
    (Table.names full.members).Nodup
      ∧ Document.get? Field.id full = Document.get? Field.id run :=
  h.unclashing.id_fullRow hrun hbase hfull

/-! ## A run with all columns -/

/-- The metric columns that a request refers to. -/
def columnsInPlay (request : Request) (catalog : Catalog) : List MetricColumn :=
  catalog.metricColumns.filter fun column => column.name ∈ request.fieldsInPlay catalog

theorem columnsInPlay_eq :
    request.columnsInPlay catalog = (request.needs catalog).metricColumns := by
  refine List.filter_congr fun column _ => ?_
  rw [Bool.eq_iff_iff, decide_eq_true_eq, mem_fieldsInPlay]

/-- All of a run with the derived columns and the metric columns that a request refers to. -/
def wholeRow (request : Request) (settings : Settings) (catalog : Catalog) (now : Instant)
    (foreign : List Json) (run : Json) : Except EvalError Json := do
  let derived ← Expr.evalFields (request.derivedFields settings catalog now) run
  let columns := request.columnsInPlay catalog
  let cells ← Expr.evalFields (columnFields columns)
    (withTable (seriesNames columns).names foreign run)
  return Document.setAll cells (Document.setAll derived run)

theorem wholeRow_eq_ok : request.wholeRow settings catalog now foreign run = .ok row ↔
    ∃ derived cells, Expr.evalFields (request.derivedFields settings catalog now) run = .ok derived
      ∧ Expr.evalFields (columnFields (request.needs catalog).metricColumns)
        (withTable (seriesNames (request.needs catalog).metricColumns).names foreign run)
          = .ok cells
      ∧ row = Document.setAll cells (Document.setAll derived run) := by
  rw [wholeRow, columnsInPlay_eq, bind_eq_ok]
  constructor
  · rintro ⟨derived, hderived, hrest⟩
    obtain ⟨cells, hcells, hret⟩ := bind_eq_ok.mp hrest
    exact ⟨derived, cells, hderived, hcells, (Except.ok.inj hret).symm⟩
  · rintro ⟨derived, cells, hderived, hcells, rfl⟩
    exact ⟨derived, hderived, bind_eq_ok.mpr ⟨cells, hcells, rfl⟩⟩

/-- A run has all columns exactly if it has a full row. -/
theorem Unclashing.exists_wholeRow_iff (h : request.Unclashing settings catalog store)
    (hrun : run ∈ store.documents settings.runs) :
    (∃ whole, request.wholeRow settings catalog now foreign run = .ok whole)
      ↔ ∃ base full, request.baseRow settings catalog now run = .ok base
        ∧ request.fullRow catalog foreign base = .ok full := by
  constructor
  · rintro ⟨whole, hwhole⟩
    obtain ⟨derived, cells, hderived, hcells, -⟩ := wholeRow_eq_ok.mp hwhole
    have hbase := (h.keepsId run hrun).baseRow_eq_ok.mpr ⟨derived, hderived, rfl⟩
    exact ⟨_, _, hbase, (h.fullRow_eq_ok hrun hbase).mpr ⟨cells, hcells, rfl⟩⟩
  · rintro ⟨base, full, hbase, hfull⟩
    obtain ⟨derived, hderived, -⟩ := (h.keepsId run hrun).baseRow_eq_ok.mp hbase
    obtain ⟨cells, hcells, -⟩ := (h.fullRow_eq_ok hrun hbase).mp hfull
    exact ⟨_, wholeRow_eq_ok.mpr ⟨derived, cells, hderived, hcells, rfl⟩⟩

/-- Away from the table of series, the full row is the same as the run with all columns wherever the
row that was read is the same as the run. -/
theorem Unclashing.sameAt_wholeRow (h : request.Unclashing settings catalog store)
    (hrun : run ∈ store.documents settings.runs) {full whole : Json}
    (hbase : request.baseRow settings catalog now run = .ok base)
    (hfull : request.fullRow catalog foreign base = .ok full)
    (hwhole : request.wholeRow settings catalog now foreign run = .ok whole) {q : List String}
    (hq : Path.Apart (Path.segments tableField) q) :
    (Document.getAt? q (request.shownRow catalog run) = Document.getAt? q run →
        Document.getAt? q full = Document.getAt? q whole)
      ∧ (Document.SameAt q (request.shownRow catalog run) run → Document.SameAt q full whole) := by
  obtain ⟨derived, cells, hderived, hcells, rfl⟩ := wholeRow_eq_ok.mp hwhole
  obtain ⟨derived', hderived', hrow⟩ := (h.keepsId run hrun).baseRow_eq_ok.mp hbase
  obtain ⟨cells', hcells', rfl⟩ := (h.fullRow_eq_ok hrun hbase).mp hfull
  cases hderived.symm.trans hderived'
  cases hcells.symm.trans hcells'
  have hisRun := h.runs run hrun
  have hkeeps := h.keepsId run hrun
  have hnames := names_evalFields hderived
  split
  · have hbeside : Document.SameAt q
        (withTable (seriesNames (request.needs catalog).metricColumns).names foreign base) base :=
      sameAt_withTable (h.isRun_baseRow hrun hbase).1 hq
    -- both rows get the same cells last, so they stay the same where they were before
    have hwritable : Document.Writable (Table.names cells)
        (withTable (seriesNames (request.needs catalog).metricColumns).names foreign base) := by
      rw [names_columnFields hcells]
      exact h.writable_columns_withTable hrun hbase
    have hwholeWritable : Document.Writable (Table.names cells) (Document.setAll derived run) := by
      rw [names_columnFields hcells]
      exact h.writable_columns hrun (Document.setAll_isObject ⟨_, hisRun.eq_obj⟩ derived)
        fun name hname hplay _ => lookup_derived hnames hname hplay
    subst hrow
    exact ⟨fun hread => Document.getAt?_setAll_congr hwritable hwholeWritable
        (hbeside.1.trans (hkeeps.getAt?_derived hisRun hnames hread)),
      fun hsame => .setAll hwritable hwholeWritable
        (hbeside.trans (hkeeps.sameAt_derived hisRun hnames hsame))⟩
  -- without a join there are no columns
  · next hjoin =>
      have hcolumns : (request.needs catalog).metricColumns = [] := by
        simpa [Needs.join] using hjoin
      rw [hcolumns] at hcells
      cases hcells
      subst hrow
      exact ⟨hkeeps.getAt?_derived hisRun hnames, hkeeps.sameAt_derived hisRun hnames⟩

/-! ## The row that is shown -/

def strippedPaths (request : Request) (catalog : Catalog) : NameSet :=
  (request.needs catalog).fields.stripPaths.insertAll
    (if (request.needs catalog).join then helperFields else [])

/-- The row that is shown of a full row. -/
def stripRow (request : Request) (catalog : Catalog) (full : Json) : Json :=
  if (request.strippedPaths catalog).isEmpty then full
  else (Projection.drop (request.strippedPaths catalog)).apply full

theorem run_stripStage (rows : List Json) : Pipeline.run collections
      ((request.needs catalog).stripStage?
        (if (request.needs catalog).join then helperFields else [])).toList rows
    = .ok (rows.map (request.stripRow catalog)) := by
  have hstage : (request.needs catalog).stripStage?
      (if (request.needs catalog).join then helperFields else [])
        = if (request.strippedPaths catalog).isEmpty then none
          else some (.project (.drop (request.strippedPaths catalog))) := rfl
  rw [hstage]
  by_cases hempty : (request.strippedPaths catalog).isEmpty = true
  · have hstrip : request.stripRow catalog = id := funext fun row => if_pos hempty
    rw [if_pos hempty, hstrip, List.map_id]
    rfl
  · have hstrip : request.stripRow catalog
        = (Projection.drop (request.strippedPaths catalog)).apply :=
      funext fun row => if_neg hempty
    rw [if_neg hempty, hstrip]
    rfl

/-- A stripped path does not begin with the identifier. -/
theorem WellPosed.head?_strippedPaths (h : request.WellPosed settings catalog store)
    (hpath : path ∈ request.strippedPaths catalog) :
    (Path.segments path).head? ≠ some Field.id := by
  rw [strippedPaths, NameSet.mem_insertAll] at hpath
  rcases hpath with hpath | hpath
  · rw [FieldSets.stripPaths, NameSet.mem_ofList] at hpath
    obtain ⟨field, hfield, rfl⟩ := List.mem_map.mp hpath
    obtain ⟨horigin, hne⟩ := mem_stripped hfield
    rcases horigin with hplay | hsupport
    · rw [FieldSets.head?_widen (h.segments field hplay)]
      intro hhead
      have hspares := h.sparesId field hplay
      have hcovers : Path.covers Field.id field = true := by
        rw [Path.covers_iff, segments_id]
        exact Path.prefix_of_head? hhead
      rw [Path.covers, hspares, Bool.or_false, beq_iff_eq] at hcovers
      exact hne hcovers.symm
    · have hsupports : ∀ field ∈ supportFields, (∀ s ∈ Path.segments field, s ≠ "")
          ∧ (Path.segments field).head? ≠ some Field.id := by decide
      rw [FieldSets.head?_widen (hsupports field hsupport).1]
      exact (hsupports field hsupport).2
  · split at hpath
    · rw [List.mem_singleton.mp hpath]
      decide
    · cases hpath

theorem WellPosed.get?_id_stripRow (h : request.WellPosed settings catalog store)
    (hrow : (Table.names row.members).Nodup) :
    Document.get? Field.id (request.stripRow catalog row) = Document.get? Field.id row := by
  rw [stripRow]
  split
  · rfl
  · rw [get?_id, get?_id, Document.member?_eq_lookup, Document.member?_eq_lookup]
    exact Projection.lookup_apply_drop hrow fun path hpath => h.head?_strippedPaths hpath

end Request

end RunTable
