import RunTable.Proofs.StoredRuns

/-!
# A shown status is the live one

A run that is stored as running but has been silent for too long is called probably dead. The status
is computed where rows are read, from fields that the caller need not have asked for, and then goes
through a filter, a sort, a join and a strip before it is shown. None of these changes it: the join
and the metric columns write elsewhere, and the strip takes a text away as a whole or leaves it.

So whatever else a request asks for, a status that a row carries is the status of its run at the
instant of the request, and it is missing only where it was not to be shown.
-/

namespace RunTable

open Outcome MetricJoin

/-- Whether no metric column is named at or below a field of a run. -/
def Catalog.SparesRuns (catalog : Catalog) : Prop :=
  ∀ column ∈ catalog.metricColumns, ∀ field ∈ Run.fieldNames, Path.covers field column.name = false

/-- Whether the runs are the documents of some run records that have identifiers of their own and
dated times. -/
structure Store.HasRuns (store : Store) (settings : Settings) (runs : List Run) : Prop
    extends store.HoldsRuns settings runs where
  dated : ∀ run ∈ runs, run.IsDated

namespace Request

variable {request : Request} {settings : Settings} {catalog : Catalog} {now : Instant}
  {store : Store} {foreign : List Json} {run base full : Json} {name : String}
  {response : Response}

/-! ## What a row keeps -/

/-- A join changes no member but its helpers and those that metric columns begin with. -/
theorem lookup_recordRow (hname : name ∉ [refField, hitsField, tableField])
    (hcolumns : ∀ column ∈ (request.needs catalog).metricColumns,
      (Path.segments column.name).head? ≠ some name)
    (hbase : (Table.names base.members).Nodup)
    (hfull : request.recordRow settings catalog foreign base = .ok full) :
    (Table.names full.members).Nodup ∧ full.members.lookup name = base.members.lookup name := by
  rw [recordRow] at hfull
  split at hfull
  · exact (lookup_of_joinedRow hbase hname hcolumns hfull).2
  · cases hfull
    exact ⟨hbase, rfl⟩

theorem head?_column_ne (h : catalog.SparesRuns) (hname : name ∈ Run.fieldNames)
    {column : MetricColumn} (hcolumn : column ∈ (request.needs catalog).metricColumns) :
    (Path.segments column.name).head? ≠ some name := by
  have hundotted : ∀ name ∈ Run.fieldNames, Path.segments name = [name] := by decide
  exact Path.head?_ne_of_not_covers (hundotted name hname)
    (h column (mem_metricColumns.mp hcolumn).1 name hname)

/-- A field that is shown is not stripped, as long as no field of the filter or the sort has empty
segments. -/
theorem not_mem_strippedPaths_of_shown (hname : name ≠ tableField)
    (h : request.selection catalog = []
      ∨ name ∈ request.selection catalog
        ∧ ∀ field ∈ request.decidingFields catalog, ∀ s ∈ Path.segments field, s ≠ "") :
    name ∉ request.strippedPaths catalog := by
  intro hmem
  rcases h with hall | ⟨hselected, hsegments⟩
  · exact hname (eq_tableField_of_selects_all hall hmem)
  · rcases mem_strippedPaths.mp hmem with hstrip | ⟨-, htable⟩
    · have hsupport : ∀ field ∈ supportFields, ∀ s ∈ Path.segments field, s ≠ "" := by decide
      have hstripped : ∀ field ∈ (request.needs catalog).fields.stripped,
          ∀ s ∈ Path.segments field, s ≠ "" := fun field hfield =>
        (mem_forced_of_stripped hfield).1.elim (hsegments field) (hsupport field)
      exact (((shows_needs request catalog).of_mem_stripPaths hstripped hstrip).2.1 name
        hselected).1 (List.prefix_refl _)
    · exact hname htable

/-! ## The status of a row -/

/-- The base row of a run has its live status, if the status is in play. -/
theorem lookup_status_baseRow {record : Run} (hrecord : record.IsDated) (hnow : now.IsDated)
    (hplay : Field.status ∈ request.fieldsInPlay catalog)
    (hbase : request.baseRow settings catalog now record.toJson = .ok base) :
    base.members.lookup Field.status
      = some (.str (record.statusAt now settings.deadAfterMillis).name) := by
  have hkeeps : request.KeepsId catalog record.toJson := record.keepsId_toJson
  obtain ⟨cells, hcells, rfl⟩ := hkeeps.baseRow_eq_ok.mp hbase
  obtain ⟨value, heval, hread⟩ := get?_derived hcells (hkeeps.isRun_shownRow record.isRun_toJson)
    (mem_derivedFields.mpr ⟨.inr rfl, hplay⟩)
  rw [Run.eval_statusExpr hrecord hnow] at heval
  cases heval
  replace hread : Document.get? Field.status _ = some _ := hread
  rwa [Document.get?_eq_member? (by decide) (by decide), Document.member?_eq_lookup] at hread

/-- The liveness rule holds end to end. Each row of a response to a request that selects, filters or
sorts by the status is made of a run of its own, and the status that it carries is the one of that
run at the instant of the request. It carries none only if the status is stripped, which happens to
no status that is selected or shown with everything else, unless a field of the filter or the sort
has an empty segment. -/
theorem shown_status_is_live {runs : List Run} (hruns : store.HasRuns settings runs)
    (hnow : now.IsDated) (hcolumns : catalog.SparesRuns) (hmode : request.mode ≠ .count)
    (hplay : Field.status ∈ request.fieldsInPlay catalog)
    (hresponse : (request.compile settings catalog now).execute store = .ok response) :
    (∃ found : List Run, found.Nodup ∧ (∀ run ∈ found, run ∈ runs)
      ∧ List.Forall₂ (fun run row =>
          (∃ base full, request.baseRow settings catalog now run.toJson = .ok base
            ∧ request.recordRow settings catalog (store.documents settings.metrics) base = .ok full
            ∧ row = request.stripRow catalog full)
          ∧ row.member? Field.id
            = (if Field.id ∈ request.strippedPaths catalog then none else some (.int run.id))
          ∧ row.member? Field.status
            = (if Field.status ∈ request.strippedPaths catalog then none
              else some (.str (run.statusAt now settings.deadAfterMillis).name)))
        found response.rows)
      ∧ (request.selection catalog = [] ∨ Field.status ∈ request.selection catalog
          ∧ (∀ field ∈ request.decidingFields catalog, ∀ s ∈ Path.segments field, s ≠ "") →
        Field.status ∉ request.strippedPaths catalog) := by
  refine ⟨?_, not_mem_strippedPaths_of_shown (by decide)⟩
  obtain ⟨docs, hnodup, hdocs, hrows⟩ :=
    (joinsBy_of_records hruns.hasRecords hruns.nodup_ids).rows_of_execute hmode hresponse
  obtain ⟨found, hfound, rfl⟩ := hruns.exists_runs hdocs
  rw [List.forall₂_map_left_iff] at hrows
  refine ⟨found, hnodup.of_map _, hfound, forall₂_imp_of_mem hrows fun run hrun row hrow => ?_⟩
  obtain ⟨base, full, hbase, hfull, rfl⟩ := hrow
  obtain ⟨hbaseRecord, hbaseId⟩ := isRecord_baseRow hruns.hasRecords
    (hruns.mem_documents.mpr ⟨run, hfound run hrun, rfl⟩) hbase
  have hkept : ∀ {name value}, name ∈ Run.fieldNames → Path.segments name = [name] →
      base.members.lookup name = some value → value.isScalar = true →
      (request.stripRow catalog full).member? name
        = if name ∈ request.strippedPaths catalog then none else some value := by
    intro name value hname hsegments hvalue hscalar
    have hhelpers : ∀ name ∈ Run.fieldNames, name ∉ [refField, hitsField, tableField] := by decide
    obtain ⟨hnames, hlookup⟩ := lookup_recordRow (hhelpers name hname)
      (fun column hcolumn => head?_column_ne hcolumns hname hcolumn) hbaseRecord.nodup hfull
    rw [hvalue] at hlookup
    rw [Document.member?_eq_lookup, lookup_stripRow_of_isScalar hsegments hnames, hlookup]
    intro other hother
    rw [hlookup] at hother
    cases hother
    exact hscalar
  refine ⟨⟨base, full, hbase, hfull, rfl⟩, hkept (by decide) (by decide) ?_ rfl,
    hkept (by decide) (by decide) ?_ rfl⟩
  · rw [hbaseId, ← Document.member?_eq_lookup, run.member?_id]
  · exact lookup_status_baseRow (hruns.dated run (hfound run hrun)) hnow hplay hbase

/-- A run that was last seen two minutes and a millisecond ago, sorted by a time that is not
shown. -/
theorem shown_status_is_live_of_one :
    let run : Run := { id := 1, status := .running, heartbeat := some ⟨978307200, 0⟩ }
    let store : Store := { collections := [("runs", [run.toJson])] }
    let now : Instant := ⟨978307320, 1999999⟩
    let request : Request := { select := ["status"], sortBy := some "heartbeat" }
    let row := Json.obj [("_id", .int 1), ("status", .str "PROBABLY_DEAD")]
    (request.compile {} {} now).execute store = .ok (.page [row])
      ∧ row.member? Field.status = some (.str (run.statusAt now 120000).name) := by
  intro run store now request row
  have hdated : run.IsDated := by decide
  have hnow : now.IsDated := by decide
  have hruns : store.HasRuns {} [run] :=
    ⟨⟨rfl, List.nodup_singleton _⟩, List.forall_mem_singleton.mpr hdated⟩
  have hcolumns : Catalog.SparesRuns {} := nofun
  let base := Json.obj [("_id", .int 1), ("heartbeat", .str "2001-01-01T00:00:00Z"),
    ("status", .str "PROBABLY_DEAD")]
  have hbase : request.baseRow {} {} now run.toJson = .ok base := by
    have hcells : Expr.evalFields (request.derivedFields {} {} now) run.toJson
        = .ok [("status", .str "PROBABLY_DEAD")] := by
      have hfields : request.derivedFields {} {} now
          = [(Field.status, Derived.statusExpr now 120000)] := by
        subst request
        rfl
      have hstatus : run.statusAt now 120000 = .probablyDead := by decide
      rw [hfields, Expr.evalFields, Run.eval_statusExpr hdated hnow, hstatus]
      rfl
    have hkeeps : request.KeepsId {} run.toJson := .inl rfl
    exact hkeeps.baseRow_eq_ok.mpr ⟨_, hcells, by subst request run base; rfl⟩
  have hrow : request.stripRow {} base = row := by
    subst request row base
    rfl
  have hpage : (request.compile {} {} now).execute store = .ok (.page [row]) := by
    rw [← hrow]
    exact (joinsBy_of_records hruns.hasRecords hruns.nodup_ids).execute_only rfl (by decide)
      (by decide) rfl (by decide) rfl hbase rfl rfl
  obtain ⟨⟨found, -, hmem, hrows⟩, -⟩ :=
    shown_status_is_live hruns hnow hcolumns (by decide) (by decide) hpage
  obtain ⟨other, others, ⟨-, -, hstatus⟩, -, rfl⟩ := List.forall₂_cons_right_iff.mp hrows
  obtain rfl : other = run := List.mem_singleton.mp (hmem other List.mem_cons_self)
  refine ⟨hpage, hstatus.trans (if_neg (by decide))⟩

end Request

end RunTable
