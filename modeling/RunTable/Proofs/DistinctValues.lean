import RunTable.Proofs.StoredRuns
import RunTable.Record.Metric
import RunTable.Service

/-!
# The values of a column

The values of a column are asked for on a way of their own: the filter is applied to the runs as
they are stored, and the field is read from them as it is stored. A list applies the filter to rows,
into which columns may have been computed, and shows these rows. So the two agree wherever nothing
is computed, and where something is, as long as it changes no verdict and not the field.

The values are gathered one at a time, and one that equals an earlier one is passed over. Hence
every value was read somewhere, every value that was read has an equal among those that were
gathered, and no gathered value equals one that was gathered before it.
-/

namespace RunTable

open Outcome MetricJoin

variable {values rows docs : List Json} {field : String} {row run : Json}

namespace Store

/-! ## Gathering values -/

theorem mem_addNew {value other : Json} (h : other ∈ addNew values value) :
    other ∈ values ∨ other = value := by
  rw [addNew] at h
  split at h
  · exact .inl h
  · exact (List.mem_append.mp h).imp_right List.mem_singleton.mp

theorem subset_addNew (value : Json) : values ⊆ addNew values value := by
  rw [addNew]
  split
  · exact List.Subset.refl _
  · exact List.subset_append_left _ _

theorem exists_equal_addNew (values : List Json) (value : Json) :
    ∃ kept ∈ addNew values value, kept = value ∨ kept.equal value = true := by
  rw [addNew]
  split
  · next hany =>
      obtain ⟨kept, hkept, hequal⟩ := List.any_eq_true.mp hany
      exact ⟨kept, hkept, .inr hequal⟩
  · exact ⟨value, by simp, .inl rfl⟩

theorem pairwise_addNew (h : values.Pairwise fun a b => a.equal b = false) (value : Json) :
    (addNew values value).Pairwise fun a b => a.equal b = false := by
  rw [addNew]
  split
  · exact h
  · next hnone =>
      refine List.pairwise_append.mpr ⟨h, List.pairwise_singleton _ _, fun a ha b hb => ?_⟩
      rw [List.mem_singleton.mp hb]
      exact Bool.eq_false_iff.mpr fun hequal => hnone (List.any_eq_true.mpr ⟨a, ha, hequal⟩)

/-- Whether values are those of a field in some rows, equal ones once: each is a value of a row,
each value of a row has an equal among them, and they were gathered such that none equals an earlier
one. -/
structure AreValues (field : String) (rows values : List Json) : Prop where
  apart : ∃ gathered : List Json, gathered.Perm values
    ∧ gathered.Pairwise fun a b => a.equal b = false
  sound : ∀ value ∈ values, ∃ row ∈ rows, value ∈ fieldValues field row
  complete : ∀ row ∈ rows, ∀ value ∈ fieldValues field row,
    ∃ kept ∈ values, kept = value ∨ kept.equal value = true

/-- What a fold gathers from a list of values, behind what was gathered before. -/
theorem foldl_addNew (more : List Json) (h : values.Pairwise fun a b => a.equal b = false) :
    (more.foldl addNew values).Pairwise (fun a b => a.equal b = false)
      ∧ values ⊆ more.foldl addNew values
      ∧ (∀ value ∈ more.foldl addNew values, value ∈ values ∨ value ∈ more)
      ∧ ∀ value ∈ more, ∃ kept ∈ more.foldl addNew values,
        kept = value ∨ kept.equal value = true := by
  induction more generalizing values with
  | nil => exact ⟨h, List.Subset.refl _, fun value hvalue => .inl hvalue, nofun⟩
  | cons first more ih =>
      obtain ⟨happart, hsubset, hsound, hcomplete⟩ := ih (pairwise_addNew h first)
      refine ⟨happart, fun value hvalue => hsubset (subset_addNew first hvalue),
        fun value hvalue => ?_, fun value hvalue => ?_⟩
      · rcases hsound value hvalue with hmem | hmem
        · rcases mem_addNew hmem with hmem | rfl
          · exact .inl hmem
          · exact .inr List.mem_cons_self
        · exact .inr (List.mem_cons_of_mem _ hmem)
      · rcases List.mem_cons.mp hvalue with rfl | hvalue
        · obtain ⟨kept, hkept, hequal⟩ := exists_equal_addNew values value
          exact ⟨kept, hsubset hkept, hequal⟩
        · exact hcomplete value hvalue

/-- A member that is no array has one value. -/
theorem fieldValues_of_isScalar {name : String} {value : Json} (hname : Path.segments name = [name])
    (hnumeral : Numeral.unsigned? name = none) (h : row.member? name = some value)
    (hscalar : value.isScalar = true) : fieldValues name row = [value] := by
  rw [fieldValues, Document.get?_eq_member? hname hnumeral, h]
  cases value <;> first | rfl | cases hscalar

/-- The store gathers the values of the documents that pass the filter. -/
theorem areValues_of_distinct {store : Store} {collection : String} {filter : Option Json}
    (h : store.distinct collection field filter = .ok values) :
    ∃ passes : Json → Bool,
      (∀ doc ∈ store.documents collection, verdict filter doc = .ok (passes doc))
      ∧ AreValues field ((store.documents collection).filter passes) values := by
  obtain ⟨passing, hpassing, hret⟩ := bind_eq_ok.mp h
  have hmap : (store.documents collection).map id = store.documents collection := List.map_id _
  rw [← hmap] at hpassing
  obtain ⟨passes, hpasses, rfl⟩ := filtered_eq_ok.mp hpassing
  rw [List.map_id] at hret
  cases hret
  obtain ⟨happart, -, hsound, hcomplete⟩ := foldl_addNew
    (((store.documents collection).filter passes).flatMap (fieldValues field)) List.Pairwise.nil
  refine ⟨passes, hpasses, ⟨_, (List.mergeSort_perm _ _).symm, happart⟩, ?_, ?_⟩
  · intro value hvalue
    exact List.mem_flatMap.mp ((hsound value (List.mem_mergeSort.mp hvalue)).resolve_left nofun)
  · intro row hrow value hvalue
    obtain ⟨kept, hkept, hequal⟩ := hcomplete value (List.mem_flatMap.mpr ⟨row, hrow, hvalue⟩)
    exact ⟨kept, List.mem_mergeSort.mpr hkept, hequal⟩

/-- Rows with the same values have the same distinct values. -/
theorem AreValues.of_map {g : Json → Json} (h : AreValues field docs values)
    (hg : ∀ doc ∈ docs, fieldValues field (g doc) = fieldValues field doc)
    (hrows : rows.Perm (docs.map g)) : AreValues field rows values where
  apart := h.apart
  sound := by
    intro value hvalue
    obtain ⟨doc, hdoc, hmem⟩ := h.sound value hvalue
    exact ⟨g doc, hrows.mem_iff.mpr (List.mem_map_of_mem hdoc), (hg doc hdoc).symm ▸ hmem⟩
  complete := by
    intro row hrow value hvalue
    obtain ⟨doc, hdoc, rfl⟩ := List.mem_map.mp (hrows.mem_iff.mp hrow)
    exact h.complete doc hdoc value (hg doc hdoc ▸ hvalue)

end Store

namespace Request

variable {request : Request} {settings : Settings} {catalog : Catalog} {now : Instant}
  {store : Store} {joined : Json → Except EvalError Json}

/-! ## The rows of a list -/

/-- The row on which the filter of a request decides: joined if the filter waits for the join. -/
def judgedRow (request : Request) (settings : Settings) (catalog : Catalog) (now : Instant)
    (foreign : List Json) (run : Json) : Except EvalError Json := do
  let base ← request.baseRow settings catalog now run
  if request.filterDeferred catalog then request.recordRow settings catalog foreign base
  else .ok base

/-- The row that a list shows of a run. -/
def listedRow (request : Request) (settings : Settings) (catalog : Catalog) (now : Instant)
    (foreign : List Json) (run : Json) : Except EvalError Json := do
  let base ← request.baseRow settings catalog now run
  return request.stripRow catalog (← request.recordRow settings catalog foreign base)

/-- A list with room for all runs shows those that its filter keeps, in some order. -/
theorem listed_of_page (h : request.JoinsBy settings catalog now store
      (request.recordRow settings catalog (store.documents settings.metrics)))
    (hmode : request.mode = .list) (hskip : request.skip = 0)
    (hfits : (store.documents settings.runs).length ≤ request.pageSize settings)
    (hrows : (request.compile settings catalog now).execute store = .ok (.page rows)) :
    ∃ (v g : Json → Json) (keeps : Json → Bool),
      (∀ run ∈ store.documents settings.runs,
        request.judgedRow settings catalog now (store.documents settings.metrics) run = .ok (v run)
        ∧ verdict request.filter (v run) = .ok (keeps run))
      ∧ (∀ run ∈ (store.documents settings.runs).filter keeps,
        request.listedRow settings catalog now (store.documents settings.metrics) run
          = .ok (g run))
      ∧ rows.Perm (((store.documents settings.runs).filter keeps).map g) := by
  obtain ⟨b, r, keeps, hhas, rfl⟩ := (h.execute_list hmode).mp hrows
  have hpage : (request.pageRuns settings catalog store b r keeps).Perm
      ((store.documents settings.runs).filter keeps) :=
    Paging.perm_page hskip ((List.length_filter_le _ _).trans hfits) _
  obtain ⟨sorted, hperm, hsorted⟩ : ∃ sorted : List Json, sorted.Perm _ ∧ _ :=
    exists_perm_resorted (request.pageRuns settings catalog store b r keeps) r
  refine ⟨if request.filterDeferred catalog then r else b,
    fun run => request.stripRow catalog (r run), keeps,
    fun run hrun => ⟨?_, hhas.verdicts run hrun⟩, fun run hrun => ?_, ?_⟩
  · refine bind_eq_ok.mpr ⟨b run, hhas.base run hrun, ?_⟩
    cases hfilter : request.filterDeferred catalog with
    | true => exact hhas.joins run hrun (.inl hfilter)
    | false => rfl
  · have hmem : run ∈ store.documents settings.runs := (List.mem_filter.mp hrun).1
    have hfull := hhas.joins run hmem (reaches_of_mem_pageRuns (hpage.mem_iff.mpr hrun))
    exact bind_eq_ok.mpr ⟨b run, hhas.base run hmem, bind_eq_ok.mpr ⟨r run, hfull, rfl⟩⟩
  · rw [hsorted, List.map_map]
    exact (hperm.trans hpage).map _

/-- The only run of a store is listed if the filter lets its row pass. -/
theorem JoinsBy.execute_one (h : request.JoinsBy settings catalog now store
      (request.recordRow settings catalog (store.documents settings.metrics)))
    (hmode : request.mode = .list) (hskip : request.skip = 0)
    (hlimit : 0 < request.pageSize settings) {judged : Json}
    (hstore : store.documents settings.runs = [run])
    (hjudged : request.judgedRow settings catalog now (store.documents settings.metrics) run
      = .ok judged)
    (hverdict : verdict request.filter judged = .ok true)
    (hlisted : request.listedRow settings catalog now (store.documents settings.metrics) run
      = .ok row) :
    (request.compile settings catalog now).execute store = .ok (.page [row]) := by
  have hrun : ∀ {p : Json → Prop}, p run → ∀ run ∈ store.documents settings.runs, p run :=
    forall_mem_of_eq_singleton hstore
  obtain ⟨base, hbase, hstrip⟩ := bind_eq_ok.mp hlisted
  obtain ⟨full, hfull, hret⟩ := bind_eq_ok.mp hstrip
  cases hret
  have hjudge : (if request.filterDeferred catalog then fun _ => full else fun _ => base) run
      = judged := by
    obtain ⟨base', hbase', hrow⟩ := bind_eq_ok.mp hjudged
    cases hbase.symm.trans hbase'
    split at hrow
    · next hfilter => rw [if_pos hfilter, Except.ok.inj (hfull.symm.trans hrow)]
    · next hfilter => rw [if_neg hfilter, Except.ok.inj hrow]
  refine (h.execute_list hmode).mpr ⟨fun _ => base, fun _ => full, fun _ => true,
    ⟨hrun hbase, fun _ _ _ => hfull, hrun (by rw [hjudge]; exact hverdict)⟩, ?_⟩
  have hpage : request.pageRuns settings catalog store (fun _ => base) (fun _ => full)
      (fun _ => true) = [run] := by
    rw [pageRuns, found, hstore, List.filter_true, Paging.page_single hskip hlimit]
  have hresorted : request.resorted settings catalog [full] = [full] := by
    rw [resorted]
    split
    · exact List.mergeSort_singleton full
    · rfl
  rw [hpage, List.map_singleton, hresorted, List.map_singleton]

/-- A row that is listed with everything has the identifier of its run. -/
theorem member?_id_listedRow {run : Run} {foreign : List Json} (hcolumns : catalog.SparesId)
    (hall : request.selection catalog = [])
    (hlisted : request.listedRow settings catalog now foreign run.toJson = .ok row) :
    row.member? Field.id = some (.int run.id) := by
  obtain ⟨base, hbase, hstrip⟩ := bind_eq_ok.mp hlisted
  obtain ⟨full, hfull, hret⟩ := bind_eq_ok.mp hstrip
  cases hret
  have hkeeps : request.KeepsId catalog run.toJson := run.keepsId_toJson
  obtain ⟨hbaseRecord, hbaseId⟩ := hkeeps.isRecord_baseRow run.isRun_toJson.isRecord hbase
  obtain ⟨hfullRecord, hfullId⟩ := isRecord_recordRow hcolumns hbaseRecord hfull
  rw [get?_id, get?_id, Document.member?_eq_lookup, run.member?_id] at hbaseId
  rw [hbaseId] at hfullId
  have hscalar : (idOf full).isScalar = true := by
    rw [idOf_eq, hfullId]
    rfl
  have hkept : Field.id ∉ request.strippedPaths catalog := fun hmem =>
    absurd (eq_tableField_of_selects_all hall hmem) (by decide)
  rw [Document.member?_eq_lookup, (lookup_id_stripRow hfullRecord hscalar).2 hkept, hfullId]

/-! ## Rows that show what is stored -/

/-- Whether a request computes no column: no derived column and no metric column is in play. -/
def ComputesNothing (request : Request) (catalog : Catalog) : Prop :=
  Field.duration ∉ request.fieldsInPlay catalog ∧ Field.status ∉ request.fieldsInPlay catalog
    ∧ (request.needs catalog).metricColumns = []

/-- Whether the columns that a request computes make no difference to a run: its filter decides on
the run as on its row, and if it lets the run pass, the row reads at a field what is stored. -/
structure ShowsStored (request : Request) (settings : Settings) (catalog : Catalog) (now : Instant)
    (foreign : List Json) (field : String) (run : Json) : Prop where
  verdict : ∀ row, request.judgedRow settings catalog now foreign run = .ok row →
    verdict request.filter row = verdict request.filter run
  field : RunTable.verdict request.filter run = .ok true →
    ∀ row, request.listedRow settings catalog now foreign run = .ok row →
      Document.get? field row = Document.get? field run

/-- A row that is the run itself shows what is stored, if nothing is joined to it. -/
theorem showsStored_of_baseRow (hall : request.selection catalog = [])
    (hcolumns : (request.needs catalog).metricColumns = [])
    (hbase : request.baseRow settings catalog now run = .ok run) (foreign : List Json)
    (field : String) : request.ShowsStored settings catalog now foreign field run := by
  have hjoin : (request.needs catalog).join = false := by rw [Needs.join, hcolumns]; rfl
  have hrecord : request.recordRow settings catalog foreign run = .ok run :=
    if_neg (by rw [hjoin]; exact Bool.false_ne_true)
  have hstrip : request.stripRow catalog run = run := by
    refine if_pos (List.isEmpty_iff.mpr (List.eq_nil_iff_forall_not_mem.mpr fun path hpath => ?_))
    rcases mem_strippedPaths.mp hpath with hmem | ⟨htrue, -⟩
    · rw [fields_needs, hall, FieldSets.foldl_force_of_not_explicit rfl] at hmem
      exact NameSet.not_mem_empty path hmem
    · rw [hjoin] at htrue
      cases htrue
  constructor
  · intro row hrow
    rw [judgedRow, hbase, ok_bind, hrecord, ite_self] at hrow
    cases hrow
    rfl
  · intro hverdict row hrow
    rw [listedRow, hbase, ok_bind, hrecord, ok_bind, hstrip] at hrow
    cases hrow
    rfl

theorem ComputesNothing.showsStored (h : request.ComputesNothing catalog)
    (hall : request.selection catalog = []) (foreign : List Json) (field : String) (run : Json) :
    request.ShowsStored settings catalog now foreign field run := by
  obtain ⟨hduration, hstatus, hcolumns⟩ := h
  refine showsStored_of_baseRow hall hcolumns ?_ foreign field
  rw [baseRow, derivedFields, if_neg hduration, if_neg hstatus, shownRow_of_selects_all hall]
  rfl

/-- The base row of a run for which one column is derived. -/
theorem baseRow_of_derived {run : Run} {name : String} {expr : Expr} {value : Json}
    (hall : request.selection catalog = [])
    (hfields : request.derivedFields settings catalog now = [(name, expr)])
    (heval : expr.eval run.toJson = .ok value) :
    request.baseRow settings catalog now run.toJson
      = .ok (Document.setAll [(name, value)] run.toJson) := by
  have hkeeps : request.KeepsId catalog run.toJson := run.keepsId_toJson
  refine hkeeps.baseRow_eq_ok.mpr ⟨[(name, value)], ?_, ?_⟩
  · rw [hfields, Expr.evalFields, heval]
    rfl
  · rw [shownRow_of_selects_all hall]

/-- Computing the status makes no difference to a run that has not died. -/
theorem showsStored_of_alive {run : Run} (hall : request.selection catalog = [])
    (hcolumns : (request.needs catalog).metricColumns = [])
    (hfields : request.derivedFields settings catalog now
      = [(Field.status, Derived.statusExpr now settings.deadAfterMillis)])
    (hrun : run.IsDated) (hnow : now.IsDated)
    (halive : run.statusAt now settings.deadAfterMillis = run.status) (foreign : List Json)
    (field : String) : request.ShowsStored settings catalog now foreign field run.toJson := by
  refine showsStored_of_baseRow hall hcolumns ?_ foreign field
  rw [baseRow_of_derived hall hfields (Run.eval_statusExpr hrun hnow _), halive]
  obtain ⟨_, _, _, _, _, startTime, heartbeat, stopTime⟩ := run
  cases startTime <;> cases heartbeat <;> cases stopTime <;> rfl

end Request

namespace Service

variable {store : Store} {settings : Settings} {catalog : Catalog} {now : Instant}
  {column : String} {params asked : Params}

/-! ## Both ways -/

theorem execute_of_listRuns {response : Response}
    (hcatalog : Catalog.load store settings = .ok catalog)
    (hparams : params.distinct = none) (h : listRuns store settings now params = .ok response) :
    ((params.toRequest .list).compile settings catalog now).execute store = .ok response := by
  rw [listRuns, hparams, answer, hcatalog] at h
  exact h

theorem distinct_of_listRuns (hcatalog : Catalog.load store settings = .ok catalog)
    (hasked : asked.distinct = some column)
    (h : listRuns store settings now asked = .ok (.distinct values)) :
    store.distinct settings.runs (catalog.resolve column) asked.filter = .ok values := by
  simp only [listRuns, hasked, distinct, hcatalog, ok_bind] at h
  split at h
  · next found hfound =>
      cases h
      exact hfound
  · cases h

/-- The values of a column are those of its field in the rows of a list with the same filter that
selects nothing and has room for all runs. This takes a list that computes no column, or columns
that make no difference: each run gets the verdict of its row, and the rows that are listed read at
the field what is stored. -/
theorem distinct_agrees_with_list {runs : List Run} (hruns : store.HoldsRuns settings runs)
    (hcatalog : Catalog.load store settings = .ok catalog) (hselect : params.select = [])
    (hparams : params.distinct = none) (hskip : params.skip = 0)
    (hfits : runs.length ≤ (params.toRequest .list).pageSize settings)
    (hasked : asked.distinct = some column) (hfilter : asked.filter = params.filter)
    (hcomputed : (params.toRequest .list).ComputesNothing catalog ∨ ∀ run ∈ runs,
      (params.toRequest .list).ShowsStored settings catalog now (store.documents settings.metrics)
        (catalog.resolve column) run.toJson)
    (hvalues : listRuns store settings now asked = .ok (.distinct values))
    (hrows : listRuns store settings now params = .ok (.page rows)) :
    Store.AreValues (catalog.resolve column) rows values := by
  have hall : (params.toRequest .list).selection catalog = [] := by
    rw [Request.selection, if_neg nofun]
    exact List.map_eq_nil_iff.mpr hselect
  have hshows : ∀ doc ∈ store.documents settings.runs,
      (params.toRequest .list).ShowsStored settings catalog now (store.documents settings.metrics)
        (catalog.resolve column) doc := by
    intro doc hdoc
    obtain ⟨run, hrun, rfl⟩ := hruns.mem_documents.mp hdoc
    exact hcomputed.elim (fun hnothing => hnothing.showsStored hall _ _ _) fun h => h run hrun
  obtain ⟨passes, hpasses, hare⟩ :=
    Store.areValues_of_distinct (distinct_of_listRuns hcatalog hasked hvalues)
  rw [hfilter] at hpasses
  obtain ⟨v, g, keeps, hjudged, hlisted, hperm⟩ := Request.listed_of_page
    (Request.joinsBy_of_records hruns.hasRecords hruns.nodup_ids) rfl hskip
    (by rwa [hruns.stored, List.length_map]) (execute_of_listRuns hcatalog hparams hrows)
  -- the filter decides on the stored runs as it does on their rows
  have hsame : ∀ doc ∈ store.documents settings.runs, keeps doc = passes doc := by
    intro doc hdoc
    obtain ⟨hrow, hverdict⟩ := hjudged doc hdoc
    rw [(hshows doc hdoc).verdict _ hrow] at hverdict
    exact Except.ok.inj (hverdict.symm.trans (hpasses doc hdoc))
  rw [List.filter_congr hsame] at hlisted hperm
  refine hare.of_map (fun doc hdoc => ?_) hperm
  obtain ⟨hmem, hpass⟩ := List.mem_filter.mp hdoc
  have hread :=
    (hshows doc hmem).field (by rw [← hpass]; exact hpasses doc hmem) _ (hlisted doc hdoc)
  rw [Store.fieldValues, Store.fieldValues, hread]

/-- What both ways find in a store with one run. -/
def Finds (store : Store) (settings : Settings) (now : Instant) (column : String) (filter : Json)
    (values : List Json) (row : Json) : Prop :=
  listRuns store settings now { distinct := some column, filter := some filter }
      = .ok (.distinct values)
    ∧ listRuns store settings now { filter := some filter } = .ok (.page [row])

theorem finds_of_one {run : Run} {judged filter : Json} {passes : Bool}
    (hruns : store.HoldsRuns settings [run]) (hcatalog : Catalog.load store settings = .ok catalog)
    (hlimit : 0 < ({ filter := some filter } : Request).pageSize settings)
    (hjudged : ({ filter := some filter } : Request).judgedRow settings catalog now
      (store.documents settings.metrics) run.toJson = .ok judged)
    (hverdict : Filter.holds filter judged = .ok true)
    (hlisted : ({ filter := some filter } : Request).listedRow settings catalog now
      (store.documents settings.metrics) run.toJson = .ok row)
    (hstored : Filter.holds filter run.toJson = .ok passes)
    (hvalues : (if passes then Store.fieldValues (catalog.resolve column) run.toJson else [])
      = values) (hfew : values.length ≤ 1) :
    Finds store settings now column filter values row := by
  have hdocs : store.documents settings.runs = [run.toJson] := hruns.stored
  have hpage := (Request.joinsBy_of_records hruns.hasRecords hruns.nodup_ids).execute_one rfl rfl
    hlimit hdocs hjudged hverdict hlisted
  have hselect : selectRows filter [run.toJson] = .ok (if passes then [run.toJson] else []) := by
    rw [selectRows, hstored, ok_bind]
    cases passes <;> rfl
  have hgathered : ((values.foldl Store.addNew []).mergeSort fun a b => a.cmp b != .gt)
      = values := by
    cases values with
    | nil => exact List.mergeSort_nil
    | cons value rest =>
        have hrest : rest.length = 0 := Nat.le_zero.mp (Nat.le_of_succ_le_succ hfew)
        obtain rfl : rest = [] := List.length_eq_zero_iff.mp hrest
        exact List.mergeSort_singleton value
  have hflat : (if passes then [run.toJson] else []).flatMap
      (Store.fieldValues (catalog.resolve column)) = values := by
    rw [← hvalues]
    cases passes <;> simp
  constructor
  · simp only [listRuns, distinct, hcatalog, ok_bind, Store.distinct, hdocs, Option.elim_some,
      hselect, hflat, hgathered]
    rfl
  · rw [listRuns, answer, hcatalog]
    exact hpage

/-- A run that is alive, found by its status. -/
theorem distinct_agrees_with_list_of_one :
    let run : Run :=
      { id := 1, status := .running, heartbeat := some ⟨978307200, 0⟩, tags := ["baseline"] }
    let store : Store := { collections := [("runs", [run.toJson])] }
    let now : Instant := ⟨978307260, 0⟩
    let filter : Json := .single "status" (.str "RUNNING")
    Finds store {} now "tags" filter [.str "baseline"] run.toJson
      ∧ Store.AreValues (Catalog.resolve {} "tags") [run.toJson] [.str "baseline"] := by
  intro run store now filter
  let params : Params := { filter := some filter }
  let request : Request := params.toRequest .list
  have hrun : run.IsDated := by decide
  have hnow : now.IsDated := by decide
  have hruns : store.HoldsRuns {} [run] := ⟨rfl, List.nodup_singleton _⟩
  have hcatalog : Catalog.load store {} = .ok {} := rfl
  have halive : run.statusAt now 120000 = .running := by decide
  have hfields : request.derivedFields {} {} now
      = [(Field.status, Derived.statusExpr now 120000)] := rfl
  have hbase : request.baseRow {} {} now run.toJson = .ok run.toJson := by
    rw [Request.baseRow_of_derived rfl hfields (Run.eval_statusExpr hrun hnow _), halive]
    rfl
  have hshows : request.ShowsStored {} {} now (store.documents "metrics")
      (Catalog.resolve {} "tags") run.toJson :=
    Request.showsStored_of_alive rfl rfl hfields hrun hnow halive _ _
  have hfinds : Finds store {} now "tags" filter [.str "baseline"] run.toJson :=
    finds_of_one hruns hcatalog (by decide) (bind_eq_ok.mpr ⟨_, hbase, rfl⟩) rfl
      (bind_eq_ok.mpr ⟨_, hbase, rfl⟩) rfl rfl (by decide)
  have hfits : [run].length ≤ request.pageSize {} := by decide
  refine ⟨hfinds, distinct_agrees_with_list hruns hcatalog ?_ ?_ ?_ hfits ?_ ?_
    (.inr (List.forall_mem_singleton.mpr hshows)) hfinds.1 hfinds.2⟩
  all_goals rfl

/-! ## Where they do not agree -/

/-- A run that has died since its heartbeat is found by its status, by its duration and by the last
value of its loss, but its document has none of them; and its status is listed as another one than
is stored. -/
theorem distinct_disagrees_with_list :
    let run : Run :=
      { id := 1, status := .running, startTime := some ⟨978307200, 0⟩,
        heartbeat := some ⟨978307260, 0⟩, metricRefs := [⟨"m", "loss"⟩] }
    let metric : Metric := { id := "m", runId := 1, name := "loss", values := [.zero] }
    let loss : MetricColumn := ⟨"final", "loss", .last, none⟩
    let store : Store :=
      { collections := [("runs", [run.toJson]), ("metrics", [metric.toJson]),
        ("omniboard.metric.columns", [loss.toJson])] }
    let finds := fun (column : String) (filter : Json) (values shown : List Json) =>
      ∃ row, Finds store {} ⟨978393600, 0⟩ column filter values row
        ∧ Store.fieldValues column row = shown
    finds "_id" (.single "status" (.str "PROBABLY_DEAD")) [] [.int 1]
      ∧ finds "_id" (.single "duration" (.single "$exists" (.bool true))) [] [.int 1]
      ∧ finds "_id" (.single "final" (.single "$exists" (.bool true))) [] [.int 1]
      ∧ finds "status" (.single "status" (.single "$ne" (.str "COMPLETED"))) [.str "RUNNING"]
        [.str "PROBABLY_DEAD"] := by
  intro run metric loss store finds
  let catalog : Catalog := { metricColumns := [loss] }
  let now : Instant := ⟨978393600, 0⟩
  have hcatalog : Catalog.load store {} = .ok catalog := rfl
  have hruns : store.HoldsRuns {} [run] := ⟨rfl, List.nodup_singleton _⟩
  have hlimit : ∀ filter : Json, 0 < ({ filter := some filter } : Request).pageSize {} :=
    fun _ => Nat.zero_lt_succ 199
  have hrun : run.IsDated := by decide
  have hstatus : (Derived.statusExpr now 120000).eval run.toJson
      = .ok (.str "PROBABLY_DEAD") := by
    have hnow : now.IsDated := by decide
    have hdead : run.statusAt now 120000 = .probablyDead := by decide
    rw [Run.eval_statusExpr hrun hnow, hdead]
    rfl
  have hduration : Derived.durationExpr.eval run.toJson = .ok (.int 60000) := by
    have hspan : run.duration = some 60000 := by decide
    rw [Run.eval_durationExpr hrun, hspan]
    rfl
  have hbase : ∀ {filter : Json} {name : String} {expr : Expr} {value : Json},
      ({ filter := some filter } : Request).derivedFields {} catalog now = [(name, expr)] →
      expr.eval run.toJson = .ok value →
      ({ filter := some filter } : Request).baseRow {} catalog now run.toJson
        = .ok (Document.setAll [(name, value)] run.toJson) :=
    fun hfields heval => Request.baseRow_of_derived rfl hfields heval
  have hid : ∀ {row : Json}, row.member? Field.id = some (.int 1) →
      Store.fieldValues "_id" row = [.int 1] := fun h =>
    Store.fieldValues_of_isScalar (by decide) (by decide) h rfl
  refine ⟨?_, ?_, ?_, ?_⟩
  · have hrow := @hbase (.single "status" (.str "PROBABLY_DEAD")) _ _ _ rfl hstatus
    exact ⟨_, finds_of_one hruns hcatalog (hlimit _) (bind_eq_ok.mpr ⟨_, hrow, rfl⟩) rfl
      (bind_eq_ok.mpr ⟨_, hrow, rfl⟩) rfl rfl (by decide), hid rfl⟩
  · have hrow := @hbase (.single "duration" (.single "$exists" (.bool true))) _ _ _ rfl hduration
    exact ⟨_, finds_of_one hruns hcatalog (hlimit _) (bind_eq_ok.mpr ⟨_, hrow, rfl⟩) rfl
      (bind_eq_ok.mpr ⟨_, hrow, rfl⟩) rfl rfl (by decide), hid rfl⟩
  · let filter := Json.single "final" (.single "$exists" (.bool true))
    let request : Request := { filter := some filter }
    have hspares : catalog.SparesId := List.forall_mem_singleton.mpr (by decide)
    have hlists : (request.listedRow {} catalog now [metric.toJson] run.toJson).toOption.isSome
        = true := by decide +kernel
    have hjudges : (request.judgedRow {} catalog now [metric.toJson] run.toJson
        >>= Filter.holds filter).toOption = some true := by decide +kernel
    obtain ⟨row, hlisted⟩ := isSome_toOption_iff.mp hlists
    obtain ⟨judged, hjudged, hverdict⟩ := bind_eq_ok.mp (toOption_eq_some.mp hjudges)
    exact ⟨row, finds_of_one hruns hcatalog (hlimit _) hjudged hverdict hlisted rfl rfl (by decide),
      hid (Request.member?_id_listedRow hspares rfl hlisted)⟩
  · have hrow := @hbase (.single "status" (.single "$ne" (.str "COMPLETED"))) _ _ _ rfl hstatus
    exact ⟨_, finds_of_one hruns hcatalog (hlimit _) (bind_eq_ok.mpr ⟨_, hrow, rfl⟩) rfl
      (bind_eq_ok.mpr ⟨_, hrow, rfl⟩) rfl
      (Store.fieldValues_of_isScalar (by decide) (by decide) rfl rfl) (by decide),
      Store.fieldValues_of_isScalar (by decide) (by decide) rfl rfl⟩

end Service

end RunTable
