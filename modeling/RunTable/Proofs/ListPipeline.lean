import Mathlib.Data.List.Nodup
import RunTable.Proofs.RowStages
import RunTable.Proofs.RunRows
import RunTable.Service

/-!
# The pipeline of a list request

A list request reads some fields of the runs, derives columns, filters, cuts a page, joins metric
series and strips what was only needed on the way. The filter and the page may have to wait for the
join, and whether they do is decided by the fields that the request filters and sorts by.

This file says what the whole pipeline does in each of the three cases, as an equivalence: it
succeeds with some rows exactly if the functions that its stages apply have values on the runs that
reach them, and then the rows are the images of the runs on the page. `JoinsBy.execute_list` says it
of all three at once, and whatever holds of every list is derived from that.
-/

namespace RunTable

open Outcome MetricJoin

namespace Request

variable {request : Request} {settings : Settings} {catalog : Catalog} {now : Instant}
  {store : Store} {collections : Collections} {runs rows : List Json} {b : Json → Json}

/-! ## Pages of a request -/

theorem keys_paging {key : String × Direction}
    (hkey : key ∈ (request.paging settings catalog).spec.keys) :
    key.1 ∈ request.fieldsInPlay catalog ∧ request.sortField catalog = some key.1
      ∨ key.1 = Field.id :=
  (Paging.keys_plan hkey).imp (fun hsort => ⟨inPlay_of_sort hsort, hsort⟩) id

/-- A page is cut early unless the sort or the filter looks at a metric column. -/
theorem placement_paging (hmode : request.mode = .list) :
    (request.paging settings catalog).placement
      = if (request.sortField catalog).any catalog.isMetric || request.filterDeferred catalog
        then .late else .early := by
  simp [paging, Paging.plan, Paging.place, hmode]

theorem resort_paging : (request.paging settings catalog).resort
    = ((request.paging settings catalog).placement == .early && (request.needs catalog).join) := rfl

/-- The pipeline of a list request, part by part. -/
theorem stages_compile (hmode : request.mode = .list) :
    (request.compile settings catalog now).stages
      = (request.needs catalog).inclusionStage?.toList
        ++ ((request.needs catalog).derived.stage? now settings.deadAfterMillis).toList
        ++ ((if request.filterDeferred catalog then []
            else (request.filter.map Stage.select).toList)
        ++ ((request.paging settings catalog).earlyStages
        ++ (request.joinStages settings catalog
        ++ ((if request.filterDeferred catalog then (request.filter.map Stage.select).toList
            else [])
        ++ ((request.paging settings catalog).lateStages
        ++ ((request.needs catalog).stripStage?
          (if (request.needs catalog).join then helperFields else [])).toList))))) := by
  simp [compile, rowStages, finalStages, hmode]

/-- A request is answered with what its pipeline makes of the runs. -/
theorem execute_iff {response : Response} :
    (request.compile settings catalog now).execute store = .ok response
      ↔ ∃ rows, Pipeline.run store.documents (request.compile settings catalog now).stages
          (store.documents settings.runs) = .ok rows
        ∧ response = .ofRows request.mode rows := by
  have hrun : store.run (request.compile settings catalog now).collection
      (request.compile settings catalog now).stages
        = Pipeline.run store.documents (request.compile settings catalog now).stages
          (store.documents settings.runs) := rfl
  rw [Compiled.execute, hrun]
  cases Pipeline.run store.documents (request.compile settings catalog now).stages
      (store.documents settings.runs) with
  | error cause => simp
  | ok rows =>
      simp only [Except.ok.injEq, exists_eq_left']
      exact eq_comm

theorem execute_eq_ok (hmode : request.mode = .list) :
    (request.compile settings catalog now).execute store = .ok (.page rows)
      ↔ Pipeline.run store.documents (request.compile settings catalog now).stages
        (store.documents settings.runs) = .ok rows := by
  simp [execute_iff, hmode, Response.ofRows]

/-! ## The join of some runs -/

/-- A request whose join works run by run: whichever runs reach it, it makes of the base row of each
what a function of that row gives. -/
structure JoinsBy (request : Request) (settings : Settings) (catalog : Catalog) (now : Instant)
    (store : Store) (joined : Json → Except EvalError Json) : Prop where
  nodup_documents : (store.documents settings.runs).Nodup
  run_join : ∀ {runs : List Json} {b : Json → Json},
    (∀ run ∈ runs, run ∈ store.documents settings.runs) → runs.Nodup →
    (∀ run ∈ runs, request.baseRow settings catalog now run = .ok (b run)) →
    Pipeline.run store.documents (if (request.needs catalog).join then
        MetricJoin.stages (request.needs catalog).metricColumns settings.metrics else [])
        (runs.map b) = (runs.map b).mapM joined

/-- The row that the join of a request makes of any document. -/
def recordRow (request : Request) (settings : Settings) (catalog : Catalog) (foreign : List Json)
    (base : Json) : Except EvalError Json :=
  if (request.needs catalog).join then
    MetricJoin.joinedRow (request.needs catalog).metricColumns settings.metrics foreign base
  else .ok base

/-- A join works run by run if the base rows have identifiers of their own. -/
theorem joinsBy_recordRow (hids : ((store.documents settings.runs).map idOf).Nodup)
    (hbase : ∀ run ∈ store.documents settings.runs, ∀ base,
      request.baseRow settings catalog now run = .ok base →
      (Table.names base.members).Nodup ∧ idOf base = idOf run) :
    request.JoinsBy settings catalog now store
      (request.recordRow settings catalog (store.documents settings.metrics)) where
  nodup_documents := hids.of_map _
  run_join := by
    intro runs b hruns hnodup hb
    by_cases hjoin : (request.needs catalog).join = true
    · have hrow : request.recordRow settings catalog (store.documents settings.metrics)
          = MetricJoin.joinedRow (request.needs catalog).metricColumns settings.metrics
            (store.documents settings.metrics) := funext fun row => if_pos hjoin
      rw [if_pos hjoin, hrow]
      refine run_stages_joinedRow (fun row hrow => ?_) (nodup_ids_iff.mpr ?_)
      · obtain ⟨run, hrun, rfl⟩ := List.mem_map.mp hrow
        exact (hbase run (hruns run hrun) _ (hb run hrun)).1
      · have hmap : (runs.map b).map idOf = runs.map idOf := by
          rw [List.map_map]
          exact List.map_congr_left fun run hrun => (hbase run (hruns run hrun) _ (hb run hrun)).2
        rw [hmap]
        have hinj := List.inj_on_of_nodup_map hids
        exact hnodup.map_on fun x hx y hy => hinj (hruns x hx) (hruns y hy)
    · have hrow : ∀ row ∈ runs.map b, request.recordRow settings catalog
          (store.documents settings.metrics) row = .ok (id row) := fun row _ => if_neg hjoin
      rw [if_neg hjoin, mapM_ok hrow, List.map_id]
      rfl

/-- Of base rows that are runs, the join makes their full rows. -/
theorem joinsBy_fullRow (hids : ((store.documents settings.runs).map idOf).Nodup)
    (hbase : ∀ run ∈ store.documents settings.runs, ∀ base,
      request.baseRow settings catalog now run = .ok base → IsRun base ∧ idOf base = idOf run) :
    request.JoinsBy settings catalog now store
      (request.fullRow catalog (store.documents settings.metrics)) where
  nodup_documents := hids.of_map _
  run_join := by
    intro runs b hruns hnodup hb
    have hrecord : request.JoinsBy settings catalog now store _ :=
      joinsBy_recordRow hids fun run hrun base hrow =>
        (hbase run hrun base hrow).imp_left IsRun.nodup
    rw [hrecord.run_join hruns hnodup hb]
    refine mapM_congr fun row hrow => ?_
    obtain ⟨run, hrun, rfl⟩ := List.mem_map.mp hrow
    rw [recordRow, fullRow, joinedRow_eq (hbase run (hruns run hrun) _ (hb run hrun)).1]

theorem Identifies.joinsBy (h : request.Identifies settings catalog store) (now : Instant) :
    request.JoinsBy settings catalog now store
      (request.fullRow catalog (store.documents settings.metrics)) :=
  joinsBy_fullRow h.apartIds fun run hrun base hbase => by
    obtain ⟨hisRun, hid⟩ := (h.keepsId run hrun).isRun_baseRow (h.runs run hrun) hbase
    exact ⟨hisRun, by rw [idOf, idOf, Document.getOrNull, Document.getOrNull, hid]⟩

/-! ## The three pipelines -/

/-- The runs that a request finds, if it cuts its page where rows look like this: those that are
kept, in order, from one place to another. -/
def found (request : Request) (settings : Settings) (catalog : Catalog) (store : Store)
    (keeps : Json → Bool) (g : Json → Json) : List Json :=
  (request.paging settings catalog).page g ((store.documents settings.runs).filter keeps)

theorem mem_of_mem_found {keeps : Json → Bool} {g : Json → Json} {run : Json}
    (hrun : run ∈ request.found settings catalog store keeps g) :
    run ∈ store.documents settings.runs :=
  (List.mem_filter.mp (Paging.mem_of_mem_page hrun)).1

theorem keeps_of_mem_found {keeps : Json → Bool} {g : Json → Json} {run : Json}
    (hrun : run ∈ request.found settings catalog store keeps g) : keeps run = true :=
  (List.mem_filter.mp (Paging.mem_of_mem_page hrun)).2

variable {joined : Json → Except EvalError Json}

/-- The join of some runs succeeds if it does so for each of them. -/
theorem JoinsBy.run_join_eq_ok (h : request.JoinsBy settings catalog now store joined)
    (hruns : ∀ run ∈ runs, run ∈ store.documents settings.runs) (hnodup : runs.Nodup)
    (hb : ∀ run ∈ runs, request.baseRow settings catalog now run = .ok (b run)) :
    Pipeline.run store.documents (if (request.needs catalog).join then
        MetricJoin.stages (request.needs catalog).metricColumns settings.metrics else [])
        (runs.map b) = .ok rows
      ↔ ∃ r : Json → Json, (∀ run ∈ runs, joined (b run) = .ok (r run)) ∧ rows = runs.map r := by
  rw [h.run_join hruns hnodup hb, List.mapM_map]
  exact mapM_eq_ok_map

/-- Whether the rows that the filter lets pass before a join keep their sort keys in it. -/
def KeepsKeys (request : Request) (settings : Settings) (catalog : Catalog) (now : Instant)
    (store : Store) : Prop :=
  ∀ run ∈ store.documents settings.runs, ∀ base full,
    request.baseRow settings catalog now run = .ok base → verdict request.filter base = .ok true →
    request.fullRow catalog (store.documents settings.metrics) base = .ok full →
    ∀ key ∈ (request.paging settings catalog).spec.keys,
      Document.getOrNull key.1 full = Document.getOrNull key.1 base

/-- Where names do not clash, sort keys that are no metric columns go through a join unchanged. -/
theorem Unclashing.keepsKeys (h : request.Unclashing settings catalog store)
    (hsort : (request.sortField catalog).any catalog.isMetric = false) :
    request.KeepsKeys settings catalog now store := by
  intro run hrun base full hbase _ hfull key hkey
  refine congrArg (Option.getD · Json.null) ?_
  rcases keys_paging hkey with ⟨hplay, hfield⟩ | hid
  · rw [hfield] at hsort
    exact (h.sameAt_fullRow hrun hbase hfull (h.apart_table (.inl hplay))
      fun column hcolumn => h.apart_column hcolumn hplay hsort).1
  · rw [hid]
    exact (h.sameAt_fullRow hrun hbase hfull (h.apart_table (.inr rfl))
      fun column hcolumn => h.apart_column_id hcolumn hrun).1

/-- The rows of a page that was cut before the join: sorted again if there was one. -/
def resorted (request : Request) (settings : Settings) (catalog : Catalog) (rows : List Json) :
    List Json :=
  if (request.needs catalog).join then (request.paging settings catalog).spec.sort rows else rows

theorem JoinsBy.run_joinStages_early (h : request.JoinsBy settings catalog now store joined)
    (hplace : (request.paging settings catalog).placement = .early) {keeps : Json → Bool}
    (hb : ∀ run ∈ store.documents settings.runs,
      request.baseRow settings catalog now run = .ok (b run)) :
    Pipeline.run store.documents (request.joinStages settings catalog)
        ((request.found settings catalog store keeps b).map b) = .ok rows
      ↔ ∃ r : Json → Json, (∀ run ∈ request.found settings catalog store keeps b,
          joined (b run) = .ok (r run))
        ∧ rows = request.resorted settings catalog
          ((request.found settings catalog store keeps b).map r) := by
  have hstages : request.joinStages settings catalog
      = (if (request.needs catalog).join then
          MetricJoin.stages (request.needs catalog).metricColumns settings.metrics else [])
        ++ (if (request.needs catalog).join then
          [.sort (request.paging settings catalog).spec] else []) := by
    rw [joinStages, Paging.resortStage?, resort_paging, hplace]
    by_cases hjoin : (request.needs catalog).join = true <;> simp [hjoin]
  have hresort : ∀ rows, Pipeline.run store.documents (if (request.needs catalog).join then
      [.sort (request.paging settings catalog).spec] else []) rows
        = .ok (request.resorted settings catalog rows) := by
    intro rows
    rw [resorted]
    split
    · exact Pipeline.run_single
    · rfl
  rw [hstages, Pipeline.run_append_iff fun _ => h.run_join_eq_ok (fun run => mem_of_mem_found)
    (Paging.nodup_page (h.nodup_documents.filter keeps))
    fun run hrun => hb run (mem_of_mem_found hrun)]
  refine exists_congr fun r => and_congr_right fun _ => ?_
  rw [hresort, Except.ok.injEq, eq_comm]

/-- Behind the join of an early page the rows are where they were, if the join keeps their sort
keys. -/
theorem KeepsKeys.resorted_found (h : request.KeepsKeys settings catalog now store)
    {keeps : Json → Bool} {r : Json → Json}
    (hb : ∀ run ∈ store.documents settings.runs,
      request.baseRow settings catalog now run = .ok (b run))
    (hkeeps : ∀ run ∈ store.documents settings.runs,
      verdict request.filter (b run) = .ok (keeps run))
    (hr : ∀ run ∈ request.found settings catalog store keeps b,
      request.fullRow catalog (store.documents settings.metrics) (b run) = .ok (r run)) :
    request.resorted settings catalog ((request.found settings catalog store keeps b).map r)
      = (request.found settings catalog store keeps b).map r := by
  rw [resorted]
  split
  · refine Paging.sort_page fun run hrun => ?_
    have hmem := mem_of_mem_found hrun
    have hkept := (hkeeps run hmem).trans (congrArg Except.ok (keeps_of_mem_found hrun))
    exact h run hmem _ _ (hb run hmem) hkept (hr run hrun)
  · rfl

/-- A page that waits for the join is not sorted again. -/
theorem joinStages_late (hplace : (request.paging settings catalog).placement = .late) :
    request.joinStages settings catalog = if (request.needs catalog).join then
      MetricJoin.stages (request.needs catalog).metricColumns settings.metrics else [] := by
  rw [joinStages, Paging.resortStage?, resort_paging, hplace]
  by_cases hjoin : (request.needs catalog).join = true <;> simp [hjoin]

theorem run_baseStages_eq_ok (out : List Json) :
    Pipeline.run collections ((request.needs catalog).inclusionStage?.toList
        ++ ((request.needs catalog).derived.stage? now settings.deadAfterMillis).toList) runs
        = .ok out
      ↔ ∃ b : Json → Json, (∀ run ∈ runs, request.baseRow settings catalog now run = .ok (b run))
        ∧ out = runs.map b := by
  rw [run_baseStages]
  exact mapM_eq_ok_map

theorem run_cut_strip {r : Json → Json} :
    Pipeline.run collections ((request.paging settings catalog).cutStages
        ++ ((request.needs catalog).stripStage?
          (if (request.needs catalog).join then helperFields else [])).toList) (runs.map r)
        = .ok rows
      ↔ rows = ((request.paging settings catalog).page r runs).map
        fun run => request.stripRow catalog (r run) := by
  rw [Pipeline.run_append, run_cutStages, ok_bind, run_stripStage, List.map_map, Except.ok.injEq,
    eq_comm]
  rfl

/-- A page that is cut early: rows are filtered, sorted and cut, and the rows of the page are joined
and sorted again. -/
theorem JoinsBy.execute_early_resorted (h : request.JoinsBy settings catalog now store joined)
    (hmode : request.mode = .list)
    (hsort : (request.sortField catalog).any catalog.isMetric = false)
    (hfilter : request.filterDeferred catalog = false) :
    (request.compile settings catalog now).execute store = .ok (.page rows) ↔
      ∃ b : Json → Json, (∀ run ∈ store.documents settings.runs,
          request.baseRow settings catalog now run = .ok (b run))
        ∧ ∃ keeps : Json → Bool, (∀ run ∈ store.documents settings.runs,
          verdict request.filter (b run) = .ok (keeps run))
        ∧ ∃ r : Json → Json, (∀ run ∈ request.found settings catalog store keeps b,
          joined (b run) = .ok (r run))
        ∧ rows = (request.resorted settings catalog
          ((request.found settings catalog store keeps b).map r)).map
            (request.stripRow catalog) := by
  have hplace : (request.paging settings catalog).placement = .early := by
    rw [placement_paging hmode, hsort, hfilter]
    rfl
  have hlate : (request.paging settings catalog).lateStages = [] :=
    if_neg (by rw [hplace]; decide)
  rw [execute_eq_ok hmode, stages_compile hmode, hfilter, Paging.earlyStages, if_pos hplace, hlate]
  simp only [Bool.false_eq_true, if_false, List.nil_append]
  rw [Pipeline.run_append_iff run_baseStages_eq_ok]
  refine exists_congr fun b => and_congr_right fun hb => ?_
  rw [Pipeline.run_append_iff fun _ => run_filter_eq_ok]
  refine exists_congr fun keeps => and_congr_right fun _ => ?_
  -- the page is cut from the base rows, and only its rows are joined
  rw [Pipeline.run_append, run_cutStages, ok_bind]
  refine (Pipeline.run_append_iff fun _ => h.run_joinStages_early hplace hb).trans ?_
  refine exists_congr fun r => and_congr_right fun _ => ?_
  rw [run_stripStage, Except.ok.injEq, eq_comm]

theorem forall_mem_of_eq_singleton {run : Json} (hruns : runs = [run]) {p : Json → Prop}
    (hrun : p run) : ∀ run ∈ runs, p run := by
  rw [hruns]
  exact List.forall_mem_singleton.mpr hrun

/-- The only run of a store is shown if the filter lets its row pass. -/
theorem JoinsBy.execute_only (h : request.JoinsBy settings catalog now store joined)
    (hmode : request.mode = .list)
    (hsort : (request.sortField catalog).any catalog.isMetric = false)
    (hfilter : request.filterDeferred catalog = false) (hskip : request.skip = 0)
    (hlimit : 0 < request.pageSize settings) {run base full : Json}
    (hstore : store.documents settings.runs = [run])
    (hbase : request.baseRow settings catalog now run = .ok base)
    (hverdict : verdict request.filter base = .ok true)
    (hfull : joined base = .ok full) :
    (request.compile settings catalog now).execute store
      = .ok (.page [request.stripRow catalog full]) := by
  have hrun : ∀ {p : Json → Prop}, p run → ∀ run ∈ store.documents settings.runs, p run :=
    forall_mem_of_eq_singleton hstore
  have hfound : request.found settings catalog store (fun _ => true) (fun _ => base) = [run] := by
    rw [found, hstore, List.filter_true, Paging.page_single hskip hlimit]
  refine (h.execute_early_resorted hmode hsort hfilter).mpr ⟨fun _ => base, hrun hbase,
    fun _ => true, hrun hverdict, fun _ => full, fun run _ => hfull, ?_⟩
  have hresorted : request.resorted settings catalog [full] = [full] := by
    rw [resorted]
    split
    · exact List.mergeSort_singleton full
    · rfl
  rw [hfound, List.map_singleton, hresorted, List.map_singleton]

/-- A page that waits for the join because of its sort: rows are filtered and joined, then sorted
and cut. -/
theorem JoinsBy.execute_late (h : request.JoinsBy settings catalog now store joined)
    (hmode : request.mode = .list)
    (hsort : (request.sortField catalog).any catalog.isMetric = true)
    (hfilter : request.filterDeferred catalog = false) :
    (request.compile settings catalog now).execute store = .ok (.page rows) ↔
      ∃ b : Json → Json, (∀ run ∈ store.documents settings.runs,
          request.baseRow settings catalog now run = .ok (b run))
        ∧ ∃ keeps : Json → Bool, (∀ run ∈ store.documents settings.runs,
          verdict request.filter (b run) = .ok (keeps run))
        ∧ ∃ r : Json → Json, (∀ run ∈ (store.documents settings.runs).filter keeps,
          joined (b run) = .ok (r run))
        ∧ rows = (request.found settings catalog store keeps r).map
          fun run => request.stripRow catalog (r run) := by
  have hplace : (request.paging settings catalog).placement = .late := by
    rw [placement_paging hmode, hsort, hfilter]
    rfl
  have hearly : (request.paging settings catalog).earlyStages = [] :=
    if_neg (by rw [hplace]; decide)
  rw [execute_eq_ok hmode, stages_compile hmode, hfilter, Paging.lateStages, if_pos hplace, hearly,
    joinStages_late hplace]
  simp only [Bool.false_eq_true, if_false, List.nil_append]
  rw [Pipeline.run_append_iff run_baseStages_eq_ok]
  refine exists_congr fun b => and_congr_right fun hb => ?_
  rw [Pipeline.run_append_iff fun _ => run_filter_eq_ok]
  refine exists_congr fun keeps => and_congr_right fun _ => ?_
  have hkept : ∀ run ∈ (store.documents settings.runs).filter keeps,
      run ∈ store.documents settings.runs := fun run hrun => (List.mem_filter.mp hrun).1
  rw [Pipeline.run_append_iff fun _ =>
    h.run_join_eq_ok hkept (h.nodup_documents.filter keeps) fun run hrun => hb run (hkept run hrun)]
  exact exists_congr fun r => and_congr_right fun _ => run_cut_strip

/-- A page that waits for the join because of its filter: all rows are joined, then filtered, sorted
and cut. -/
theorem JoinsBy.execute_deferred (h : request.JoinsBy settings catalog now store joined)
    (hmode : request.mode = .list) (hfilter : request.filterDeferred catalog = true) :
    (request.compile settings catalog now).execute store = .ok (.page rows) ↔
      ∃ b : Json → Json, (∀ run ∈ store.documents settings.runs,
          request.baseRow settings catalog now run = .ok (b run))
        ∧ ∃ r : Json → Json, (∀ run ∈ store.documents settings.runs,
          joined (b run) = .ok (r run))
        ∧ ∃ keeps : Json → Bool, (∀ run ∈ store.documents settings.runs,
          verdict request.filter (r run) = .ok (keeps run))
        ∧ rows = (request.found settings catalog store keeps r).map
          fun run => request.stripRow catalog (r run) := by
  have hplace : (request.paging settings catalog).placement = .late := by
    rw [placement_paging hmode, hfilter, Bool.or_true]
    rfl
  have hearly : (request.paging settings catalog).earlyStages = [] :=
    if_neg (by rw [hplace]; decide)
  rw [execute_eq_ok hmode, stages_compile hmode, hfilter, Paging.lateStages, if_pos hplace, hearly,
    joinStages_late hplace]
  simp only [if_true, List.nil_append]
  rw [Pipeline.run_append_iff run_baseStages_eq_ok]
  refine exists_congr fun b => and_congr_right fun hb => ?_
  -- all runs are joined, since the filter decides on the joined rows
  rw [Pipeline.run_append_iff fun _ =>
    h.run_join_eq_ok (fun run hrun => hrun) h.nodup_documents hb]
  refine exists_congr fun r => and_congr_right fun _ => ?_
  rw [Pipeline.run_append_iff fun _ => run_filter_eq_ok]
  exact exists_congr fun keeps => and_congr_right fun _ => run_cut_strip

/-! ## All three at once -/

/-- Whether a list request cuts its page behind the join. -/
def cutsLate (request : Request) (catalog : Catalog) : Bool :=
  (request.sortField catalog).any catalog.isMetric || request.filterDeferred catalog

/-- The runs on the page of a list request, cut by their base rows or by their full rows. -/
def pageRuns (request : Request) (settings : Settings) (catalog : Catalog) (store : Store)
    (b r : Json → Json) (keeps : Json → Bool) : List Json :=
  request.found settings catalog store keeps (if request.cutsLate catalog then r else b)

/-- Whether a list request joins the row of a run: it joins all rows if its filter waits for that,
and otherwise those that are kept or only those on the page. -/
def Reaches (request : Request) (settings : Settings) (catalog : Catalog) (store : Store)
    (b : Json → Json) (keeps : Json → Bool) (run : Json) : Prop :=
  request.filterDeferred catalog = true
    ∨ (request.sortField catalog).any catalog.isMetric = true ∧ keeps run = true
    ∨ run ∈ request.found settings catalog store keeps b

/-- A list request makes these base rows and full rows, and its filter keeps these runs. -/
structure HasRows (request : Request) (settings : Settings) (catalog : Catalog) (now : Instant)
    (store : Store) (joined : Json → Except EvalError Json) (b r : Json → Json)
    (keeps : Json → Bool) : Prop where
  base : ∀ run ∈ store.documents settings.runs,
    request.baseRow settings catalog now run = .ok (b run)
  joins : ∀ run ∈ store.documents settings.runs,
    request.Reaches settings catalog store b keeps run → joined (b run) = .ok (r run)
  verdicts : ∀ run ∈ store.documents settings.runs,
    verdict request.filter ((if request.filterDeferred catalog then r else b) run)
      = .ok (keeps run)

theorem Reaches.keeps {keeps : Json → Bool} {run : Json}
    (h : request.Reaches settings catalog store b keeps run)
    (hfilter : request.filterDeferred catalog = false) : keeps run = true := by
  rcases h with htrue | ⟨-, hkept⟩ | hfound
  · rw [hfilter] at htrue
    cases htrue
  · exact hkept
  · exact keeps_of_mem_found hfound

theorem Reaches.mem_found {keeps : Json → Bool} {run : Json}
    (h : request.Reaches settings catalog store b keeps run)
    (hfilter : request.filterDeferred catalog = false)
    (hsort : (request.sortField catalog).any catalog.isMetric = false) :
    run ∈ request.found settings catalog store keeps b := by
  rcases h with htrue | ⟨htrue, -⟩ | hfound
  · rw [hfilter] at htrue
    cases htrue
  · rw [hsort] at htrue
    cases htrue
  · exact hfound

/-- A page that is cut behind the join is in order already. -/
theorem resorted_found (keeps : Json → Bool) (r : Json → Json) :
    request.resorted settings catalog ((request.found settings catalog store keeps r).map r)
      = (request.found settings catalog store keeps r).map r := by
  rw [resorted]
  split
  · exact Paging.sort_page fun _ _ _ _ => rfl
  · rfl

/-- A list request succeeds if it has the rows that it needs and its filter decides on them, and
then it shows the full rows of the runs on its page. -/
theorem JoinsBy.execute_list (h : request.JoinsBy settings catalog now store joined)
    (hmode : request.mode = .list) :
    (request.compile settings catalog now).execute store = .ok (.page rows) ↔
      ∃ b r keeps, request.HasRows settings catalog now store joined b r keeps
        ∧ rows = (request.resorted settings catalog
          ((request.pageRuns settings catalog store b r keeps).map r)).map
            (request.stripRow catalog) := by
  have hrows : ∀ {b r : Json → Json} {keeps : Json → Bool}, request.cutsLate catalog = true →
      (request.resorted settings catalog
        ((request.pageRuns settings catalog store b r keeps).map r)).map (request.stripRow catalog)
      = (request.found settings catalog store keeps r).map
        fun run => request.stripRow catalog (r run) := by
    intro b r keeps hlate
    rw [pageRuns, hlate, if_pos rfl, resorted_found, List.map_map]
    rfl
  cases hfilter : request.filterDeferred catalog with
  | true =>
      have hlate : request.cutsLate catalog = true := by rw [cutsLate, hfilter, Bool.or_true]
      rw [h.execute_deferred hmode hfilter]
      constructor
      · rintro ⟨b, hb, r, hr, keeps, hkeeps, rfl⟩
        exact ⟨b, r, keeps, ⟨hb, fun run hrun _ => hr run hrun, by rwa [if_pos hfilter]⟩,
          (hrows hlate).symm⟩
      · rintro ⟨b, r, keeps, ⟨hb, hr, hkeeps⟩, rfl⟩
        rw [if_pos hfilter] at hkeeps
        exact ⟨b, hb, r, fun run hrun => hr run hrun (.inl hfilter), keeps, hkeeps, hrows hlate⟩
  | false =>
      have hbase : ∀ b r : Json → Json, (if request.filterDeferred catalog then r else b) = b :=
        fun _ _ => if_neg (ne_true_of_eq_false hfilter)
      cases hsort : (request.sortField catalog).any catalog.isMetric with
      | true =>
          have hlate : request.cutsLate catalog = true := by rw [cutsLate, hsort, Bool.true_or]
          rw [h.execute_late hmode hsort hfilter]
          constructor
          · rintro ⟨b, hb, keeps, hkeeps, r, hr, rfl⟩
            exact ⟨b, r, keeps, ⟨hb, fun run hrun hreach =>
              hr run (List.mem_filter.mpr ⟨hrun, hreach.keeps hfilter⟩), by rwa [hbase]⟩,
              (hrows hlate).symm⟩
          · rintro ⟨b, r, keeps, ⟨hb, hr, hkeeps⟩, rfl⟩
            rw [hbase] at hkeeps
            refine ⟨b, hb, keeps, hkeeps, r, fun run hrun => ?_, hrows hlate⟩
            obtain ⟨hmem, hkept⟩ := List.mem_filter.mp hrun
            exact hr run hmem (.inr (.inl ⟨hsort, hkept⟩))
      | false =>
          have hpage : ∀ b r keeps, request.pageRuns settings catalog store b r keeps
              = request.found settings catalog store keeps b := by
            intro b r keeps
            rw [pageRuns, cutsLate, hsort, hfilter]
            rfl
          rw [h.execute_early_resorted hmode hsort hfilter]
          constructor
          · rintro ⟨b, hb, keeps, hkeeps, r, hr, rfl⟩
            exact ⟨b, r, keeps, ⟨hb, fun run _ hreach => hr run (hreach.mem_found hfilter hsort),
              by rwa [hbase]⟩, by rw [hpage]⟩
          · rintro ⟨b, r, keeps, ⟨hb, hr, hkeeps⟩, rfl⟩
            rw [hbase] at hkeeps
            exact ⟨b, hb, keeps, hkeeps, r, fun run hrun =>
              hr run (mem_of_mem_found hrun) (.inr (.inr hrun)), by rw [hpage]⟩

/-- The rows that are shown have been joined, and so have those that a page is cut by. -/
theorem reaches_of_mem_pageRuns {r : Json → Json} {keeps : Json → Bool} {run : Json}
    (hrun : run ∈ request.pageRuns settings catalog store b r keeps) :
    request.Reaches settings catalog store b keeps run := by
  have hkept : keeps run = true := keeps_of_mem_found hrun
  cases hfilter : request.filterDeferred catalog with
  | true => exact .inl hfilter
  | false =>
      cases hsort : (request.sortField catalog).any catalog.isMetric with
      | true => exact .inr (.inl ⟨hsort, hkept⟩)
      | false =>
          rw [pageRuns, cutsLate, hsort, hfilter] at hrun
          exact .inr (.inr hrun)

theorem reaches_of_cutsLate {keeps : Json → Bool} {run : Json}
    (hlate : request.cutsLate catalog = true) (hkept : keeps run = true) :
    request.Reaches settings catalog store b keeps run :=
  (Bool.or_eq_true_iff.mp hlate).elim (fun hsort => .inr (.inl ⟨hsort, hkept⟩)) .inl

/-- Where a page is cut early, the filter has decided on the base rows. -/
theorem HasRows.verdicts_base {joined : Json → Except EvalError Json} {r : Json → Json}
    {keeps : Json → Bool} (h : request.HasRows settings catalog now store joined b r keeps)
    (hlate : request.cutsLate catalog = false) (run : Json)
    (hrun : run ∈ store.documents settings.runs) :
    verdict request.filter (b run) = .ok (keeps run) := by
  have hfilter : request.filterDeferred catalog = false := (Bool.or_eq_false_iff.mp hlate).2
  have hverdict := h.verdicts run hrun
  rwa [hfilter, if_neg Bool.false_ne_true] at hverdict

/-- The rows of an early page stay in order if the join keeps their sort keys. -/
theorem HasRows.resorted_pageRuns {r : Json → Json} {keeps : Json → Bool}
    (h : request.HasRows settings catalog now store
      (request.fullRow catalog (store.documents settings.metrics)) b r keeps)
    (hkeys : request.cutsLate catalog = false → request.KeepsKeys settings catalog now store) :
    request.resorted settings catalog ((request.pageRuns settings catalog store b r keeps).map r)
      = (request.pageRuns settings catalog store b r keeps).map r := by
  cases hlate : request.cutsLate catalog with
  | true =>
      rw [pageRuns, hlate, if_pos rfl]
      exact resorted_found keeps r
  | false =>
      have hpage : request.pageRuns settings catalog store b r keeps
          = request.found settings catalog store keeps b := by
        rw [pageRuns, hlate, if_neg Bool.false_ne_true]
      have hr : ∀ run ∈ request.found settings catalog store keeps b,
          request.fullRow catalog (store.documents settings.metrics) (b run) = .ok (r run) :=
        fun run hrun => h.joins run (mem_of_mem_found hrun) (.inr (.inr hrun))
      rw [hpage, (hkeys hlate).resorted_found h.base (h.verdicts_base hlate) hr]

/-! ## The runs that are found -/

/-- The row of a run before the join or behind it. -/
def rowAt (request : Request) (settings : Settings) (catalog : Catalog) (now : Instant)
    (foreign : List Json) (joined : Bool) (run : Json) : Except EvalError Json := do
  let base ← request.baseRow settings catalog now run
  if joined then request.fullRow catalog foreign base else return base

theorem rowAt_eq_ok {foreign : List Json} {joined : Bool} {run row : Json} :
    request.rowAt settings catalog now foreign joined run = .ok row ↔
      ∃ base, request.baseRow settings catalog now run = .ok base
        ∧ (if joined then request.fullRow catalog foreign base else .ok base) = .ok row :=
  bind_eq_ok

/-- Base rows and full rows give the row of either place. -/
theorem rowAt_of_rows {foreign : List Json} {r : Json → Json} {late : Bool} {run : Json}
    (hbase : request.baseRow settings catalog now run = .ok (b run))
    (hfull : late = true → request.fullRow catalog foreign (b run) = .ok (r run)) :
    request.rowAt settings catalog now foreign late run
      = .ok ((if late then r else b) run) := by
  refine rowAt_eq_ok.mpr ⟨b run, hbase, ?_⟩
  cases late with
  | true => exact hfull rfl
  | false => rfl

section

variable {r : Json → Json} {keeps : Json → Bool} {run : Json}
  (h : request.HasRows settings catalog now store
    (request.fullRow catalog (store.documents settings.metrics)) b r keeps)

include h

theorem HasRows.rowAt_filter (hrun : run ∈ store.documents settings.runs) :
    request.rowAt settings catalog now (store.documents settings.metrics)
        (request.filterDeferred catalog) run
      = .ok ((if request.filterDeferred catalog then r else b) run) :=
  rowAt_of_rows (h.base run hrun) fun hfilter => h.joins run hrun (.inl hfilter)

theorem HasRows.rowAt_page (hrun : run ∈ (store.documents settings.runs).filter keeps) :
    request.rowAt settings catalog now (store.documents settings.metrics)
        (request.cutsLate catalog) run
      = .ok ((if request.cutsLate catalog then r else b) run) := by
  obtain ⟨hmem, hkept⟩ := List.mem_filter.mp hrun
  exact rowAt_of_rows (h.base run hmem) fun hlate =>
    h.joins run hmem (reaches_of_cutsLate hlate hkept)

end

/-- A list request succeeds if all runs have rows, and rows on which its filter decides. -/
theorem JoinsBy.exists_page (h : request.JoinsBy settings catalog now store
      (request.fullRow catalog (store.documents settings.metrics)))
    (hmode : request.mode = .list)
    (hrows : ∀ run ∈ store.documents settings.runs, ∃ row,
      request.rowAt settings catalog now (store.documents settings.metrics) true run = .ok row)
    (hverdicts : ∀ run ∈ store.documents settings.runs, ∃ row keep,
      request.rowAt settings catalog now (store.documents settings.metrics)
          (request.filterDeferred catalog) run = .ok row
        ∧ verdict request.filter row = .ok keep) :
    ∃ rows, (request.compile settings catalog now).execute store = .ok (.page rows) := by
  choose! v keeps hv hkeeps using hverdicts
  choose! full hfull using hrows
  choose! b hb hr using fun run hrun => rowAt_eq_ok.mp (hfull run hrun)
  refine ⟨_, (h.execute_list hmode).mpr ⟨b, full, keeps, ⟨hb, fun run hrun => ?_,
    fun run hrun => ?_⟩, rfl⟩⟩
  · exact fun _ => hr run hrun
  · have hrow : request.rowAt settings catalog now (store.documents settings.metrics)
        (request.filterDeferred catalog) run
          = .ok ((if request.filterDeferred catalog then full else b) run) :=
      rowAt_of_rows (hb run hrun) fun _ => hr run hrun
    rw [← Except.ok.inj ((hv run hrun).symm.trans hrow)]
    exact hkeeps run hrun

theorem length_resorted (rows : List Json) :
    (request.resorted settings catalog rows).length = rows.length := by
  rw [resorted]
  split
  · exact List.length_mergeSort _
  · rfl

/-- A page with room for all runs has as many rows as there are runs on which the filter decides
that they are kept. -/
theorem JoinsBy.length_of_page (h : request.JoinsBy settings catalog now store
      (request.fullRow catalog (store.documents settings.metrics)))
    (hmode : request.mode = .list) (hskip : request.skip = 0)
    (hfits : (store.documents settings.runs).length ≤ request.pageSize settings)
    (hrows : (request.compile settings catalog now).execute store = .ok (.page rows)) :
    ∃ (v : Json → Json) (keeps : Json → Bool),
      (∀ run ∈ store.documents settings.runs,
        request.rowAt settings catalog now (store.documents settings.metrics)
          (request.filterDeferred catalog) run = .ok (v run))
      ∧ (∀ run ∈ store.documents settings.runs, verdict request.filter (v run) = .ok (keeps run))
      ∧ rows.length = ((store.documents settings.runs).filter keeps).length := by
  obtain ⟨b, r, keeps, hhas, rfl⟩ := (h.execute_list hmode).mp hrows
  refine ⟨_, keeps, fun run => hhas.rowAt_filter, hhas.verdicts, ?_⟩
  rw [List.length_map, length_resorted, List.length_map]
  exact Paging.length_page hskip ((List.length_filter_le _ _).trans hfits) _

theorem WellPosed.ids_page (h : request.WellPosed settings catalog store) {r : Json → Json}
    (hruns : ∀ run ∈ runs, run ∈ store.documents settings.runs)
    (hb : ∀ run ∈ store.documents settings.runs,
      request.baseRow settings catalog now run = .ok (b run))
    (hr : ∀ run ∈ runs,
      request.fullRow catalog (store.documents settings.metrics) (b run) = .ok (r run)) :
    ((runs.map r).map (request.stripRow catalog)).map (Document.get? Field.id)
      = runs.map (Document.get? Field.id) := by
  rw [List.map_map, List.map_map]
  refine List.map_congr_left fun run hrun => ?_
  have hmem := hruns run hrun
  obtain ⟨hnodup, hid⟩ := h.id_fullRow hmem (hb run hmem) (hr run hrun)
  rw [Function.comp_apply, Function.comp_apply, h.get?_id_stripRow hnodup, hid]

/-- Before a join that the filter does not wait for, rows get the verdict of the joined rows. -/
theorem WellPosed.verdict_baseRow (h : request.WellPosed settings catalog store)
    (hfilter : request.filterDeferred catalog = false) {run base full : Json}
    {foreign : List Json} (hrun : run ∈ store.documents settings.runs)
    (hbase : request.baseRow settings catalog now run = .ok base)
    (hfull : request.fullRow catalog foreign base = .ok full) :
    verdict request.filter base = verdict request.filter full := by
  refine verdict_congr fun field hfield => ?_
  have hplay : field ∈ request.fieldsInPlay catalog := inPlay_of_filter hfield
  have hmetric : catalog.isMetric field = false := by
    rw [filterDeferred, List.any_eq_false] at hfilter
    simpa using hfilter field hfield
  exact (h.unclashing.sameAt_fullRow hrun hbase hfull (h.apart_table (.inl hplay))
    fun column hcolumn => h.unclashing.apart_column hcolumn hplay hmetric).symm

theorem WellPosed.keepsKeys (h : request.WellPosed settings catalog store)
    (hlate : request.cutsLate catalog = false) :
    request.KeepsKeys settings catalog now store :=
  h.unclashing.keepsKeys (Bool.or_eq_false_iff.mp hlate).1

/-- A list request succeeds if all runs have rows, and finds the runs of the page that is cut by the
rows behind the join. -/
theorem WellPosed.execute_of_rows (h : request.WellPosed settings catalog store)
    (hmode : request.mode = .list) {r : Json → Json} {keeps : Json → Bool}
    (hb : ∀ run ∈ store.documents settings.runs,
      request.baseRow settings catalog now run = .ok (b run))
    (hr : ∀ run ∈ store.documents settings.runs,
      request.fullRow catalog (store.documents settings.metrics) (b run) = .ok (r run))
    (hkeeps : ∀ run ∈ store.documents settings.runs,
      verdict request.filter (r run) = .ok (keeps run)) :
    ∃ rows, (request.compile settings catalog now).execute store = .ok (.page rows)
      ∧ rows.map (Document.get? Field.id)
        = (request.found settings catalog store keeps r).map (Document.get? Field.id) := by
  have hposed : request.Identifies settings catalog store := h.unclashing.toIdentifies
  have hhas : request.HasRows settings catalog now store
      (request.fullRow catalog (store.documents settings.metrics)) b r keeps := by
    refine ⟨hb, fun run hrun _ => hr run hrun, fun run hrun => ?_⟩
    cases hfilter : request.filterDeferred catalog with
    | true => exact hkeeps run hrun
    | false =>
        exact (h.verdict_baseRow hfilter hrun (hb run hrun) (hr run hrun)).trans (hkeeps run hrun)
  have hpage : request.pageRuns settings catalog store b r keeps
      = request.found settings catalog store keeps r := by
    cases hlate : request.cutsLate catalog with
    | true => rw [pageRuns, hlate, if_pos rfl]
    | false =>
        rw [pageRuns, hlate, if_neg Bool.false_ne_true]
        refine Paging.page_congr fun run hrun key hkey => ?_
        obtain ⟨hmem, hkept⟩ := List.mem_filter.mp hrun
        have hpass := (hhas.verdicts_base hlate run hmem).trans (congrArg Except.ok hkept)
        exact (h.keepsKeys hlate run hmem _ _ (hb run hmem) hpass (hr run hmem) key hkey).symm
  refine ⟨_, ((hposed.joinsBy now).execute_list hmode).mpr ⟨b, r, keeps, hhas, rfl⟩, ?_⟩
  rw [hhas.resorted_pageRuns h.keepsKeys, hpage]
  exact h.ids_page (fun run => mem_of_mem_found) hb fun run hrun => hr run (mem_of_mem_found hrun)

/-- A list request succeeds if all runs have rows on which its filter can decide. -/
theorem WellPosed.exists_page (h : request.WellPosed settings catalog store)
    (hmode : request.mode = .list) (hall : ∀ run ∈ store.documents settings.runs,
      (request.rowAt settings catalog now (store.documents settings.metrics) true run
        >>= verdict request.filter).toOption.isSome = true) :
    ∃ rows, (request.compile settings catalog now).execute store = .ok (.page rows) := by
  have hrows : ∀ run ∈ store.documents settings.runs, ∃ base full keep,
      request.baseRow settings catalog now run = .ok base
      ∧ request.fullRow catalog (store.documents settings.metrics) base = .ok full
      ∧ verdict request.filter full = .ok keep := by
    intro run hrun
    obtain ⟨full, keep, hrow, hverdict⟩ := isSome_toOption_bind_iff.mp (hall run hrun)
    obtain ⟨base, hbase, hfull⟩ := rowAt_eq_ok.mp hrow
    exact ⟨base, full, keep, hbase, hfull, hverdict⟩
  choose! b r keeps hb hr hkeeps using hrows
  exact (h.execute_of_rows hmode hb hr hkeeps).imp fun rows => And.left

/-- The only run of a store is found if the filter lets its row pass. -/
theorem WellPosed.execute_single (h : request.WellPosed settings catalog store)
    (hmode : request.mode = .list) (hskip : request.skip = 0)
    (hlimit : 0 < request.pageSize settings)
    {run : Json} {keep : Bool} (hstore : store.documents settings.runs = [run])
    (hverdict : (request.rowAt settings catalog now (store.documents settings.metrics) true run
      >>= verdict request.filter).toOption = some keep) :
    ∃ rows, (request.compile settings catalog now).execute store = .ok (.page rows)
      ∧ rows.map (Document.get? Field.id) = if keep then [Document.get? Field.id run] else [] := by
  obtain ⟨full, hrow, hkeep⟩ := bind_eq_ok.mp (toOption_eq_some.mp hverdict)
  obtain ⟨base, hbase, hfull⟩ := rowAt_eq_ok.mp hrow
  have hall : ∀ {p : Json → Prop}, p run → ∀ run ∈ store.documents settings.runs, p run :=
    forall_mem_of_eq_singleton hstore
  have hb : ∀ run ∈ store.documents settings.runs,
      request.baseRow settings catalog now run = .ok ((fun _ => base) run) := hall hbase
  have hr : ∀ run ∈ store.documents settings.runs, request.fullRow catalog
      (store.documents settings.metrics) base = .ok ((fun _ => full) run) := hall hfull
  have hkeeps : ∀ run ∈ store.documents settings.runs,
      verdict request.filter full = .ok ((fun _ => keep) run) := hall hkeep
  obtain ⟨rows, hrows, hids⟩ := h.execute_of_rows hmode hb hr hkeeps
  refine ⟨rows, hrows, ?_⟩
  rw [hids, found, hstore]
  cases keep with
  | true =>
      rw [List.filter_true, Paging.page_single hskip hlimit]
      rfl
  | false =>
      rw [List.filter_false, Paging.page_nil]
      rfl

/-- A list request that succeeds has rows before the join or behind it on which its filter decides,
and rows by which its page is cut, and it finds the runs of that page. -/
theorem WellPosed.execute_finds (h : request.WellPosed settings catalog store)
    (hmode : request.mode = .list)
    (hrows : (request.compile settings catalog now).execute store = .ok (.page rows)) :
    ∃ (v : Json → Json) (keeps : Json → Bool) (g : Json → Json),
      (∀ run ∈ store.documents settings.runs,
        request.rowAt settings catalog now (store.documents settings.metrics)
          (request.filterDeferred catalog) run = .ok (v run))
      ∧ (∀ run ∈ store.documents settings.runs, verdict request.filter (v run) = .ok (keeps run))
      ∧ (∀ run ∈ (store.documents settings.runs).filter keeps,
        request.rowAt settings catalog now (store.documents settings.metrics)
          ((request.sortField catalog).any catalog.isMetric || request.filterDeferred catalog) run
            = .ok (g run))
      ∧ rows.map (Document.get? Field.id)
        = (request.found settings catalog store keeps g).map (Document.get? Field.id) := by
  have hposed : request.Identifies settings catalog store := h.unclashing.toIdentifies
  obtain ⟨b, r, keeps, hhas, rfl⟩ := ((hposed.joinsBy now).execute_list hmode).mp hrows
  refine ⟨_, keeps, _, fun run => hhas.rowAt_filter, hhas.verdicts,
    fun run => hhas.rowAt_page, ?_⟩
  rw [hhas.resorted_pageRuns h.keepsKeys]
  exact h.ids_page (fun run => mem_of_mem_found) hhas.base
    fun run hrun => hhas.joins run (mem_of_mem_found hrun) (reaches_of_mem_pageRuns hrun)

end Request

end RunTable
