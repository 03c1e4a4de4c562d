import RunTable.Proofs.StoredRuns
import RunTable.Proofs.WellFormedFilters
import RunTable.Record.Metric

/-!
# Queries over records do not fail

An operator fails on a value of the wrong kind, and a compiled query has many of them: it subtracts
times, takes parts of lists, merges objects and looks into whatever a column names. None of this
goes wrong over the documents of records, whatever is selected, joined, sorted or cut.

Stages are composed by what they take and what they leave. A list of stages carries rows of one kind
to rows of another if it succeeds on every list of the first kind, and a pipeline is cut where the
kind changes. Documents of records are subtracted from and become rows with an identifier; a join
takes any such rows and gives each a table of series whose values are lists; the columns take these
and leave whatever they leave, since nothing behind them looks at more than a filter does.

The filter is the one part of a request that brings operators of its own, so it must be well formed.
That is asked for in the smaller of the two match languages: a choice between filters for the items
of an array belongs to the larger one only, and a request that filters by one can fail.
-/

namespace RunTable

open Outcome MetricJoin

/-! ## The documents of records -/

/-- The document of a metric with some values, of which those that are no finite numbers are written
as null. -/
def Metric.document (metric : Metric) (values : List (Option Double)) : Json :=
  .obj (Table.put "values" (.arr (values.map Json.ofDouble?)) metric.toJson.members)

theorem Metric.document_values (metric : Metric) :
    metric.document (metric.values.map some) = metric.toJson := by
  have hvalues : (metric.values.map some).map Json.ofDouble? = metric.values.map .double := by
    rw [List.map_map]
    rfl
  rw [document, hvalues]
  rfl

/-- A document of a run whose times are dated, or of a metric. -/
inductive IsStored : Json → Prop
  | run (run : Run) (h : run.IsDated) : IsStored run.toJson
  | metric (metric : Metric) (values : List (Option Double)) : IsStored (metric.document values)

/-- Whether the values of a series, if it has any, are a list. -/
def ListsValues (series : Json) : Prop :=
  ∀ values, series.member? "values" = some values → ∃ items, values = .arr items

variable {doc row : Json} {now : Instant} {deadAfterMillis : Int}

/-- A silence that can be computed is all that the derived status needs. -/
theorem Derived.exists_eval_statusExpr {silence : Json}
    (h : (Expr.subtract (.instant now)
        (.ifNull (.field Field.heartbeat) (.field Field.startTime))).eval doc = .ok silence)
    (deadAfterMillis : Int) : ∃ v, (statusExpr now deadAfterMillis).eval doc = .ok v := by
  have hliteral : (Expr.literal (.int deadAfterMillis)).eval doc = .ok (.int deadAfterMillis) := by
    rw [Expr.eval]
  have hname : (Expr.str Status.running.name).eval doc = .ok (.str Status.running.name) := by
    rw [Expr.str, Expr.eval]
  have hfield : (Expr.field Field.status).eval doc = .ok (Document.getOrNull Field.status doc) := by
    rw [Expr.eval]
  have hall := Expr.eval_all_pair (Expr.eval_binary .equal hfield hname)
    (Expr.eval_binary .above h hliteral)
  rw [statusExpr, Expr.eval]
  unfold Expr.equal Expr.above
  rw [hall, ok_bind]
  split
  · exact ⟨_, by rw [Expr.str, Expr.eval]⟩
  · exact ⟨_, hfield⟩

namespace IsStored

theorem isRecord (h : IsStored doc) : IsRecord doc := by
  cases h with
  | run run _ => exact run.isRun_toJson.isRecord
  | metric metric values =>
      have hnames : Table.names (metric.document values).members
          = ["_id", "run_id", "name", "steps", "values", "timestamps"] := rfl
      refine ⟨rfl, ?_, List.mem_cons_self⟩
      rw [hnames]
      decide

theorem isScalar_idOf (h : IsStored doc) : (idOf doc).isScalar = true := by
  cases h with
  | run run _ => exact run.isScalar_idOf_toJson
  | metric metric values => rfl

theorem listsValues (h : IsStored doc) : ListsValues doc := by
  cases h with
  | run run _ =>
      have hnone : run.toJson.member? "values" = none := by
        rw [Document.member?_eq_lookup, Table.lookup_eq_none_iff]
        exact fun hmem => absurd (run.names_toJson.subset hmem) (by decide)
      intro values hvalues
      rw [hnone] at hvalues
      cases hvalues
  | metric metric list => exact fun values hvalues => ⟨_, (Option.some.inj hvalues).symm⟩

/-- Whatever is derived of a record has a value: the times of a run have differences, and a metric
has no times. -/
theorem exists_eval_derived (h : IsStored doc) (hnow : now.IsDated) (deadAfterMillis : Int) :
    (∃ v, Derived.durationExpr.eval doc = .ok v)
      ∧ ∃ v, (Derived.statusExpr now deadAfterMillis).eval doc = .ok v := by
  cases h with
  | run run hrun =>
      exact ⟨⟨_, Run.eval_durationExpr hrun⟩, _, Run.eval_statusExpr hrun hnow deadAfterMillis⟩
  | metric metric values =>
      have htimes : ∀ field ∈ [Field.heartbeat, Field.startTime],
          (Expr.field field).eval (metric.document values) = .ok .null := by
        intro field hfield
        have hplain : ∀ field ∈ [Field.heartbeat, Field.startTime],
            Path.segments field = [field] ∧ Numeral.unsigned? field = none := by decide
        obtain ⟨hsegments, hnumeral⟩ := hplain field hfield
        rw [Expr.eval, Document.getOrNull, Document.get?_eq_member? hsegments hnumeral]
        rcases List.mem_cons.mp hfield with rfl | hfield
        · rfl
        · rw [List.mem_singleton.mp hfield]
          rfl
      have hbeat := htimes Field.heartbeat List.mem_cons_self
      have hstart := htimes Field.startTime (List.mem_cons_of_mem _ List.mem_cons_self)
      have hinstant : (Expr.instant now).eval (metric.document values) = .ok (.str now.text) := by
        rw [Expr.eval]
      have hseen : (Expr.ifNull (.field Field.heartbeat) (.field Field.startTime)).eval
          (metric.document values) = .ok .null := by
        rw [Expr.eval, hbeat]
        exact hstart
      constructor
      · rw [Derived.durationExpr, Expr.subtract, Expr.eval_binary .subtract hbeat hstart]
        exact ⟨.null, rfl⟩
      · exact Derived.exists_eval_statusExpr (Expr.eval_binary .subtract hinstant hseen) _

end IsStored

/-! ## Stages that carry rows -/

namespace Pipeline

variable {collections : Collections} {first second : List Stage} {filter : Option Json}
  {paging : Paging} {P Q R : Json → Prop}

/-- Whether stages succeed on rows of one kind, and make rows of another kind of them. -/
def Carries (collections : Collections) (P : Json → Prop) (stages : List Stage)
    (Q : Json → Prop) : Prop :=
  ∀ rows, (∀ row ∈ rows, P row) →
    ∃ out, run collections stages rows = .ok out ∧ ∀ row ∈ out, Q row

theorem Carries.append (hfirst : Carries collections P first Q)
    (hsecond : Carries collections Q second R) : Carries collections P (first ++ second) R := by
  intro rows hrows
  obtain ⟨between, hbetween, hQ⟩ := hfirst rows hrows
  obtain ⟨out, hout, hR⟩ := hsecond between hQ
  exact ⟨out, run_append_eq_ok.mpr ⟨between, hbetween, hout⟩, hR⟩

theorem Carries.mono (h : Carries collections Q first R) (hPQ : ∀ row, P row → Q row) :
    Carries collections P first R :=
  fun rows hrows => h rows fun row hrow => hPQ row (hrows row hrow)

theorem carries_nil : Carries collections P [] P := fun rows hrows => ⟨rows, rfl, hrows⟩

/-- Stages that work row by row carry what they carry of each row. -/
theorem carries_of_mapM {f : Json → Except EvalError Json} {stages : List Stage}
    (hstages : ∀ rows, run collections stages rows = rows.mapM f)
    (h : ∀ row, P row → ∃ result, f row = .ok result ∧ Q result) :
    Carries collections P stages Q := by
  intro rows hrows
  choose! g hg hQ using h
  refine ⟨rows.map g, ?_, fun result hresult => ?_⟩
  · rw [hstages]
    exact mapM_ok fun row hrow => hg row (hrows row hrow)
  · obtain ⟨row, hrow, rfl⟩ := List.mem_map.mp hresult
    exact hQ row (hrows row hrow)

/-- A well-formed filter keeps some of the rows. -/
theorem carries_select {f : Json} (hf : Filter.isWellFormed f = true) :
    Carries collections P [.select f] P := by
  intro rows hrows
  choose keeps hkeeps using Filter.holds_ok f hf
  have hselect : selectRows f (rows.map id) = .ok ((rows.filter keeps).map id) :=
    selectRows_ok fun row _ => hkeeps row
  rw [List.map_id, List.map_id] at hselect
  exact ⟨rows.filter keeps, run_single.trans hselect,
    fun row hrow => hrows row (List.mem_filter.mp hrow).1⟩

theorem carries_filter (hfilter : ∀ f ∈ filter, Filter.isWellFormed f = true) :
    Carries collections P (filter.map Stage.select).toList P := by
  cases filter with
  | none => exact carries_nil
  | some f => exact carries_select (hfilter f rfl)

/-- A page is made of rows that were there. -/
theorem carries_cutStages : Carries collections P paging.cutStages P := fun rows hrows =>
  ⟨_, run_cutStages_self rows, fun row hrow => hrows row (Paging.mem_of_mem_page hrow)⟩

theorem carries_resortStage : Carries collections P paging.resortStage?.toList P := by
  rw [Paging.resortStage?]
  split
  · intro rows hrows
    exact ⟨_, run_single, fun row hrow => hrows row ((paging.spec.perm_sort rows).mem_iff.mp hrow)⟩
  · exact carries_nil

theorem carries_ite {stages : List Stage} {c : Prop} [Decidable c]
    (h : Carries collections P stages P) : Carries collections P (if c then stages else []) P := by
  split
  · exact h
  · exact carries_nil

theorem carries_count (field : String) :
    Carries collections P [.count field] fun _ => True := by
  intro rows _
  cases rows with
  | nil => exact ⟨[], rfl, nofun⟩
  | cons row rows => exact ⟨_, rfl, fun _ _ => trivial⟩

end Pipeline

/-! ## The join -/

namespace MetricJoin

open Pipeline

variable {collections : Collections} {names : List String} {collection : String}
  {foreign rows : List Json} {run group : Json} {text : String} {columns : List MetricColumn}

/-- Whether a row has a table of series whose values, if they have any, are lists. -/
def HasSeries (row : Json) : Prop :=
  ∃ table, Document.getOrNull tableField row = .obj table ∧ ∀ entry ∈ table, ListsValues entry.2

/-- Of the first row of a group and the entries of all its rows, a row with a table is made. -/
theorem hasSeries_of_group (hgroup : IsGroup joinFields idOf rows text group)
    (hrows : ∀ row ∈ rows, ∃ run, IsRecord run ∧ row ∈ joinedRows names collection foreign run)
    (hforeign : ∀ series ∈ foreign, ListsValues series) :
    ∃ restored, replaceRow rootExpr group = .ok restored
      ∧ HasSeries ((Projection.drop (.ofList [refField, hitsField])).apply restored) := by
  obtain ⟨first, cells, hfirst, hcells, rfl⟩ := hgroup
  have hmem : ∀ row ∈ rowsOf idOf text rows, row ∈ rows := fun _ hrow => (mem_rowsOf.mp hrow).1
  rw [groupCells_joinFields hfirst fun row hrow =>
    (hrows row (hmem row hrow)).elim fun _ hrun => eval_entry_joinedRows hrun.2] at hcells
  cases hcells
  obtain ⟨run, hrun, hjoined⟩ := hrows first (hmem first (List.mem_of_head? hfirst))
  have hnames := nodup_names_joinedRows hrun.nodup hjoined
  obtain ⟨ms, rfl⟩ := joinedRows_isObject hjoined
  refine ⟨_, replaceRow_group hnames rfl rfl, _, getOrNull_drop_helpers hnames _,
    fun entry hentry => ?_⟩
  obtain ⟨target, htarget, rfl⟩ := List.mem_map.mp ((Table.mem_putAll hentry).resolve_left nofun)
  obtain ⟨row, hrow, rfl⟩ := List.mem_map.mp htarget
  obtain ⟨other, -, hother⟩ := hrows row (hmem row hrow)
  rw [entryOf]
  cases htargetOf : targetOf row with
  | none =>
      intro values hvalues
      cases hvalues
  | some series => exact hforeign series (mem_of_targetOf hother htargetOf)

/-- The stages up to the table take any records. -/
theorem carries_tableStages (names : List String)
    (hforeign : ∀ series ∈ collections collection, ListsValues series) :
    Carries collections IsRecord (tableStages names collection) HasSeries := by
  intro runs hruns
  have hjoined : ∀ row ∈ runs.flatMap (joinedRows names collection (collections collection)),
      ∃ run, IsRecord run ∧ row ∈ joinedRows names collection (collections collection) run := by
    intro row hrow
    obtain ⟨run, hrun, hmem⟩ := List.mem_flatMap.mp hrow
    exact ⟨run, hruns run hrun, hmem⟩
  have hkey : ∀ row ∈ runs.flatMap (joinedRows names collection (collections collection)),
      (Expr.field Field.id).eval row = .ok (idOf row) := fun row _ => by
    rw [Expr.eval]
    rfl
  obtain ⟨groups, hgroups⟩ :=
    groupRows_joinedRows names collection (collections collection) runs
  have hclosed : ∀ group ∈ groups, ∃ restored, replaceRow rootExpr group = .ok restored
      ∧ HasSeries ((Projection.drop (.ofList [refField, hitsField])).apply restored) := by
    intro group hgroup
    obtain ⟨text, -, hisGroup⟩ := exists_of_mem_right (isGroup_groupRows hkey hgroups) hgroup
    exact hasSeries_of_group hisGroup hjoined hforeign
  choose! restored hrestored hseries using hclosed
  have hreplace : Stage.apply collections (.replaceRoot rootExpr) groups
      = .ok (groups.map restored) := mapM_ok hrestored
  refine ⟨(groups.map restored).map (Projection.drop (.ofList [refField, hitsField])).apply,
    ?_, ?_⟩
  · rw [run_tableStages, hgroups, ok_bind]
    exact run_cons_ok hreplace
  · intro row hrow
    obtain ⟨_, hmem, rfl⟩ := List.mem_map.mp hrow
    obtain ⟨group, hgroup, rfl⟩ := List.mem_map.mp hmem
    exact hseries group hgroup

theorem reduceValues_ok {values : Json} (reduction : Reduction) (window : Nat)
    (h : values = .null ∨ ∃ items, values = .arr items) :
    ∃ v, reduceValues reduction window values = .ok v := by
  rcases h with rfl | ⟨items, rfl⟩ <;> cases reduction <;> exact ⟨_, rfl⟩

theorem eval_columnExpr_ok (h : HasSeries row) (column : MetricColumn) :
    ∃ v, (columnExpr column).eval row = .ok v := by
  obtain ⟨table, htable, hlists⟩ := h
  let series := (table.lookup column.series).getD .null
  have hseries : (Expr.member column.series (.field tableField)).eval row = .ok series := by
    rw [Expr.member, Expr.eval, Expr.eval, htable]
    rfl
  have hvalues : (Expr.member "values" (.member column.series (.field tableField))).eval row
      = .ok ((series.member? "values").getD .null) := by
    rw [Expr.member, Expr.eval, hseries]
    rfl
  rw [columnExpr, eval_reduce column.reduction column.window_pos hvalues]
  refine reduceValues_ok _ _ ?_
  cases hmember : series.member? "values" with
  | none => exact .inl rfl
  | some values =>
      have hlist : ListsValues series := by
        cases hlookup : table.lookup column.series with
        | none => exact fun _ hvalues => by simp [series, hlookup, Json.member?] at hvalues
        | some found =>
            have hfound := hlists _ (Table.mem_of_lookup hlookup)
            simpa [series, hlookup] using hfound
      exact .inr (hlist values hmember)

/-- The columns are computed from lists. -/
theorem carries_columnStage (columns : List MetricColumn) :
    Carries collections HasSeries [columnStage columns] fun _ => True := by
  refine carries_of_mapM (fun rows => run_single) fun row hrow => ?_
  obtain ⟨cells, hcells⟩ : ∃ cells, Expr.evalFields
      (columns.map fun column => (column.name, columnExpr column)) row = .ok cells :=
    evalFields_ok fun entry hentry => by
      obtain ⟨column, -, rfl⟩ := List.mem_map.mp hentry
      exact eval_columnExpr_ok hrow column
  exact ⟨_, computeFields_eq_ok.mpr ⟨cells, hcells, rfl⟩, trivial⟩

end MetricJoin

/-! ## Whole queries -/

namespace Request

open Pipeline

variable {request : Request} {settings : Settings} {catalog : Catalog} {store : Store}
  {collections : Collections}

/-- The documents of records are read and derived from. -/
theorem carries_baseStages (hnow : now.IsDated) :
    Carries collections IsStored ((request.needs catalog).inclusionStage?.toList
      ++ ((request.needs catalog).derived.stage? now settings.deadAfterMillis).toList)
      IsRecord := by
  refine carries_of_mapM run_baseStages fun doc hdoc => ?_
  have hkeeps : request.KeepsId catalog doc := .inl hdoc.isScalar_idOf
  obtain ⟨hduration, hstatus⟩ := hdoc.exists_eval_derived hnow settings.deadAfterMillis
  obtain ⟨cells, hcells⟩ : ∃ cells, Expr.evalFields
      (request.derivedFields settings catalog now) doc = .ok cells :=
    evalFields_ok fun entry hentry => by
      rcases (mem_derivedFields.mp hentry).1 with rfl | rfl
      · exact hduration
      · exact hstatus
  have hbase := hkeeps.baseRow_eq_ok.mpr ⟨cells, hcells, rfl⟩
  exact ⟨_, hbase, (hkeeps.isRecord_baseRow hdoc.isRecord hbase).1⟩

theorem carries_rowStages (hnow : now.IsDated)
    (hfilter : ∀ f ∈ request.filter, Filter.isWellFormed f = true) :
    Carries collections IsStored (request.rowStages settings catalog now) IsRecord := by
  have hearly : Carries collections IsRecord (if request.filterDeferred catalog then []
      else (request.filter.map Stage.select).toList) IsRecord := by
    split
    · exact carries_nil
    · exact carries_filter hfilter
  have hpage : Carries collections IsRecord (request.paging settings catalog).earlyStages
      IsRecord := carries_ite carries_cutStages
  rw [rowStages, List.append_assoc _ (Option.toList _) (Option.toList _)]
  refine ((Carries.append (Q := IsStored) ?_ (carries_baseStages hnow)).append hearly).append hpage
  split
  · next id _ =>
      have hid : Filter.isWellFormed (.single Field.id (.int id)) = true := rfl
      exact carries_select hid
  · exact carries_nil

theorem carries_joinStages (hmetrics : ∀ doc ∈ collections settings.metrics, IsStored doc) :
    Carries collections IsRecord (request.joinStages settings catalog) fun _ => True := by
  rw [joinStages]
  split
  · have htables := carries_tableStages (seriesNames (request.needs catalog).metricColumns).names
      fun series hseries => (hmetrics series hseries).listsValues
    exact (htables.append (carries_columnStage _)).append carries_resortStage
  · exact carries_nil.mono fun _ _ => trivial

theorem carries_finalStages (hfilter : ∀ f ∈ request.filter, Filter.isWellFormed f = true) :
    Carries collections (fun _ => True) (request.finalStages settings catalog)
      fun _ => True := by
  have hstrip : Carries collections (fun _ => True) ((request.needs catalog).stripStage?
      (if (request.needs catalog).join then helperFields else [])).toList fun _ => True :=
    fun rows _ => ⟨_, run_stripStage rows, fun _ _ => trivial⟩
  exact (((carries_ite (carries_filter hfilter)).append (carries_ite carries_cutStages)).append
    hstrip).append (carries_ite (carries_count _))

/-- A query over records succeeds: whatever a request selects, sorts by, filters by and cuts, its
pipeline has a result on a store whose runs and metrics are the documents of records, as long as the
filter is well formed and in it no filter of logical operators alone stands under `$elemMatch`. -/
theorem execute_succeeds (hnow : now.IsDated)
    (hruns : ∀ doc ∈ store.documents settings.runs, IsStored doc)
    (hmetrics : ∀ doc ∈ store.documents settings.metrics, IsStored doc)
    (hfilter : ∀ f ∈ request.filter, Filter.isWellFormed f = true) :
    ∃ response, (request.compile settings catalog now).execute store = .ok response := by
  obtain ⟨rows, hrows, -⟩ := ((carries_rowStages hnow hfilter).append
    (carries_joinStages hmetrics)).append (carries_finalStages hfilter) _ hruns
  refine ⟨.ofRows request.mode rows, ?_⟩
  rw [Compiled.execute, Store.run]
  replace hrows : Pipeline.run store.documents (request.compile settings catalog now).stages
    (store.documents settings.runs) = .ok rows := hrows
  rw [show (request.compile settings catalog now).collection = settings.runs from rfl, hrows]
  rfl

/-- A run whose configuration is a list and one of whose values is no number, filtered by the column
that is reduced from it. -/
theorem execute_succeeds_of_one :
    let run : Run :=
      { id := 1, config := .arr [.null], status := .running, heartbeat := some ⟨978307200, 0⟩,
        metricRefs := [⟨"m", "loss"⟩] }
    let metric : Metric := { id := "m", runId := 1, name := "loss" }
    let store : Store :=
      { collections := [("runs", [run.toJson]), ("metrics", [metric.document [none]])] }
    let catalog : Catalog := { metricColumns := [⟨"final", "loss", .last, none⟩] }
    let filter : Json := .obj [
      ("$or", .arr [.single "status" (.single "$in" (.strings ["RUNNING"])),
        .single "config" (.single "$elemMatch" (.single "$not" (.int 1)))]),
      ("final", .single "$exists" (.bool true))]
    let request : Request := { select := ["config.lr"], filter := some filter }
    ∃ response, (request.compile {} catalog ⟨978307320, 0⟩).execute store = .ok response := by
  intro run metric store catalog filter request
  have hrun : run.IsDated := by decide
  have hruns : ∀ doc ∈ store.documents "runs", IsStored doc :=
    List.forall_mem_singleton.mpr (.run run hrun)
  have hmetrics : ∀ doc ∈ store.documents "metrics", IsStored doc :=
    List.forall_mem_singleton.mpr (.metric metric [none])
  have hfilter : ∀ f ∈ request.filter, Filter.isWellFormed f = true := by
    rintro f ⟨⟩
    rfl
  exact execute_succeeds (by decide) hruns hmetrics hfilter

/-- A choice between filters for the items of a configuration is well formed by the rules of the
match language, the items of the run have what is asked for, and the request fails. -/
theorem execute_fails_on_choice :
    let run : Run := { id := 1, config := .arr [.single "a" (.int 1)] }
    let store : Store := { collections := [("runs", [run.toJson])] }
    let filter : Json := .single "config"
      (.single "$elemMatch" (.single "$or" (.arr [.single "a" (.int 1)])))
    let request : Request := { filter := some filter }
    let now : Instant := ⟨978307320, 0⟩
    now.IsDated
      ∧ (∀ doc ∈ store.documents "runs", IsStored doc)
      ∧ (∀ doc ∈ store.documents "metrics", IsStored doc)
      ∧ Filter.IsFilter true filter
      ∧ (request.compile {} {} now).execute store = .error (.store (.unknownOperator "$or")) := by
  intro run store filter request now
  have hruns : ∀ doc ∈ store.documents "runs", IsStored doc :=
    List.forall_mem_singleton.mpr (.run run (by decide))
  have hmetrics : ∀ doc ∈ store.documents "metrics", IsStored doc := nofun
  have hfilter : Filter.IsFilter true filter :=
    Filter.isFilter_choice_of_items (by decide) (List.cons_ne_nil _ _)
      (List.forall_mem_singleton.mpr (Filter.isFilter_of_value (by decide) rfl))
  exact ⟨by decide, hruns, hmetrics, hfilter, rfl⟩

end Request

end RunTable
