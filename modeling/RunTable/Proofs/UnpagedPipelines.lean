import RunTable.Proofs.ListPipeline

/-!
# The pipeline of a request without a page

A request for one run and a count sort nothing and cut nothing. What is left of the pipeline are
filters, and between them what a row is made of: the choice of a run, the base row, the filter, the
join, the filter if it had to wait, and the strip. So such a request is described by the runs that
all filters leave and by the full rows of these.

The last section puts this beside the three pipelines of a list: whatever a request does, each row
of its response is made of a run of its own.
-/

namespace RunTable

open Outcome MetricJoin

def Response.rows : Response → List Json
  | document doc => doc.toList
  | page rows => rows
  | _ => []

theorem Response.ofRows_count (n : Json) :
    ofRows .count [.single Field.count n] = count (n.nat64?.getD 0) := by
  simp only [ofRows, List.head?_cons, Option.bind_some, Json.single, Json.member?,
    List.lookup_cons_self]

namespace Request

variable {request : Request} {settings : Settings} {catalog : Catalog} {now : Instant}
  {store : Store} {joined : Json → Except EvalError Json}
  {runs rows found : List Json} {b r : Json → Json} {response : Response}

/-- The filter that chooses the run of a request for one run. -/
def chosenFilter (request : Request) : Option Json :=
  match request.mode with
  | .single id => some (.single Field.id (.int id))
  | _ => none

def earlyFilter (request : Request) (catalog : Catalog) : Option Json :=
  if request.filterDeferred catalog then none else request.filter

def lateFilter (request : Request) (catalog : Catalog) : Option Json :=
  if request.filterDeferred catalog then request.filter else none

/-- The runs that are left of some runs by the filters of a request without a page, and their full
rows. -/
def Leaves (request : Request) (settings : Settings) (catalog : Catalog) (now : Instant)
    (joined : Json → Except EvalError Json) (runs found : List Json) (r : Json → Json) : Prop :=
  ∃ picks passes keeps : Json → Bool, ∃ b : Json → Json,
    (∀ run ∈ runs, verdict request.chosenFilter run = .ok (picks run))
    ∧ (∀ run ∈ runs.filter picks, request.baseRow settings catalog now run = .ok (b run))
    ∧ (∀ run ∈ runs.filter picks,
      verdict (request.earlyFilter catalog) (b run) = .ok (passes run))
    ∧ (∀ run ∈ (runs.filter picks).filter passes, joined (b run) = .ok (r run))
    ∧ (∀ run ∈ (runs.filter picks).filter passes,
      verdict (request.lateFilter catalog) (r run) = .ok (keeps run))
    ∧ found = ((runs.filter picks).filter passes).filter keeps

/-- The response to a request without a page, from the rows that are left. -/
def reply (request : Request) (rows : List Json) : Response :=
  match request.mode with
  | .count => .count ((Json.nat rows.length).nat64?.getD 0)
  | mode => .ofRows mode rows

/-! ## The pipeline, part by part -/

theorem stages_compile_unpaged (hmode : request.mode ≠ .list) :
    (request.compile settings catalog now).stages
      = (request.chosenFilter.map Stage.select).toList
        ++ (((request.needs catalog).inclusionStage?.toList
          ++ ((request.needs catalog).derived.stage? now settings.deadAfterMillis).toList)
        ++ (((request.earlyFilter catalog).map Stage.select).toList
        ++ ((if (request.needs catalog).join then
            MetricJoin.stages (request.needs catalog).metricColumns settings.metrics else [])
        ++ (((request.lateFilter catalog).map Stage.select).toList
        ++ (((request.needs catalog).stripStage?
          (if (request.needs catalog).join then helperFields else [])).toList
        ++ if request.mode = .count then [.count Field.count] else []))))) := by
  have hplace : (request.paging settings catalog).placement = .omitted := by
    simp [paging, Paging.plan, Paging.place, hmode]
  have hearly : (request.paging settings catalog).earlyStages = [] :=
    if_neg (by rw [hplace]; decide)
  have hlate : (request.paging settings catalog).lateStages = [] :=
    if_neg (by rw [hplace]; decide)
  have hresort : (request.paging settings catalog).resortStage? = none :=
    if_neg (by rw [resort_paging, hplace]; exact Bool.false_ne_true)
  rw [compile, rowStages, joinStages, finalStages, hearly, hlate, hresort, chosenFilter,
    earlyFilter, lateFilter]
  cases hcase : request.mode with
  | list => exact absurd hcase hmode
  | single id => cases request.filterDeferred catalog <;> simp
  | count => cases request.filterDeferred catalog <;> simp

/-- Counting is what makes a count of the rows that are left. -/
theorem reply_eq (collections : Collections) (hmode : request.mode ≠ .list) (rows : List Json) :
    ∃ shown, Pipeline.run collections (if request.mode = .count then [.count Field.count] else [])
        rows = .ok shown ∧ request.reply rows = .ofRows request.mode shown := by
  rw [reply]
  cases hcase : request.mode with
  | list => exact absurd hcase hmode
  | single id => exact ⟨rows, rfl, rfl⟩
  | count =>
      cases rows with
      | nil =>
          refine ⟨[], rfl, ?_⟩
          simp [Response.ofRows, Json.nat, Json.int, Json.nat64?, Word.fitsUnsigned]
      | cons row rows =>
          have hrun : Pipeline.run collections
              (if Mode.count = .count then [.count Field.count] else []) (row :: rows)
                = .ok [.single Field.count (.nat (row :: rows).length)] := rfl
          exact ⟨_, hrun, (Response.ofRows_count _).symm⟩

/-- What the pipeline of a request without a page does, up to the count. -/
theorem JoinsBy.run_unpaged (h : request.JoinsBy settings catalog now store joined)
    (hmode : request.mode ≠ .list) :
    Pipeline.run store.documents (request.compile settings catalog now).stages
        (store.documents settings.runs) = .ok rows
      ↔ ∃ found r,
        request.Leaves settings catalog now joined (store.documents settings.runs) found r
        ∧ Pipeline.run store.documents (if request.mode = .count then [.count Field.count] else [])
          (found.map fun run => request.stripRow catalog (r run)) = .ok rows := by
  have hpicked : ∀ between, Pipeline.run store.documents
      (request.chosenFilter.map Stage.select).toList (store.documents settings.runs) = .ok between
      ↔ ∃ picks : Json → Bool, (∀ run ∈ store.documents settings.runs,
          verdict request.chosenFilter run = .ok (picks run))
        ∧ between = (store.documents settings.runs).filter picks := by
    intro between
    rw [← List.map_id (store.documents settings.runs), run_filter_eq_ok, List.map_id]
    simp only [id, List.map_id]
  rw [stages_compile_unpaged hmode, Pipeline.run_append_iff hpicked]
  constructor
  · rintro ⟨picks, hpicks, hrest⟩
    obtain ⟨b, hb, hrest⟩ := (Pipeline.run_append_iff run_baseStages_eq_ok).mp hrest
    obtain ⟨passes, hpasses, hrest⟩ :=
      (Pipeline.run_append_iff fun _ => run_filter_eq_ok).mp hrest
    obtain ⟨r, hr, hrest⟩ := (Pipeline.run_append_iff fun _ => h.run_join_eq_ok
      (fun run hrun => (List.mem_filter.mp (List.mem_filter.mp hrun).1).1)
      ((h.nodup_documents.filter picks).filter passes)
      fun run hrun => hb run (List.mem_filter.mp hrun).1).mp hrest
    obtain ⟨keeps, hkeeps, hrest⟩ :=
      (Pipeline.run_append_iff fun _ => run_filter_eq_ok).mp hrest
    rw [Pipeline.run_append, run_stripStage, ok_bind, List.map_map] at hrest
    exact ⟨_, r, ⟨picks, passes, keeps, b, hpicks, hb, hpasses, hr, hkeeps, rfl⟩, hrest⟩
  · rintro ⟨_, r, ⟨picks, passes, keeps, b, hpicks, hb, hpasses, hr, hkeeps, rfl⟩, hrest⟩
    refine ⟨picks, hpicks, (Pipeline.run_append_iff run_baseStages_eq_ok).mpr ⟨b, hb, ?_⟩⟩
    refine (Pipeline.run_append_iff fun _ => run_filter_eq_ok).mpr ⟨passes, hpasses, ?_⟩
    refine (Pipeline.run_append_iff fun _ => h.run_join_eq_ok
      (fun run hrun => (List.mem_filter.mp (List.mem_filter.mp hrun).1).1)
      ((h.nodup_documents.filter picks).filter passes)
      fun run hrun => hb run (List.mem_filter.mp hrun).1).mpr ⟨r, hr, ?_⟩
    refine (Pipeline.run_append_iff fun _ => run_filter_eq_ok).mpr ⟨keeps, hkeeps, ?_⟩
    rw [Pipeline.run_append, run_stripStage, ok_bind, List.map_map]
    exact hrest

/-- A request without a page succeeds if what is done to the runs that its filters leave succeeds,
and its response is made of the rows of these. -/
theorem JoinsBy.execute_unpaged (h : request.JoinsBy settings catalog now store joined)
    (hmode : request.mode ≠ .list) :
    (request.compile settings catalog now).execute store = .ok response
      ↔ ∃ found r,
        request.Leaves settings catalog now joined (store.documents settings.runs) found r
        ∧ response = request.reply (found.map fun run => request.stripRow catalog (r run)) := by
  rw [execute_iff]
  constructor
  · rintro ⟨rows, hrows, rfl⟩
    obtain ⟨found, r, hleaves, hcounted⟩ := (h.run_unpaged hmode).mp hrows
    obtain ⟨shown, hshown, heq⟩ := reply_eq store.documents hmode
      (found.map fun run => request.stripRow catalog (r run))
    rw [hshown] at hcounted
    cases hcounted
    exact ⟨found, r, hleaves, heq.symm⟩
  · rintro ⟨found, r, hleaves, rfl⟩
    obtain ⟨shown, hshown, heq⟩ := reply_eq store.documents hmode
      (found.map fun run => request.stripRow catalog (r run))
    exact ⟨shown, (h.run_unpaged hmode).mpr ⟨found, r, hleaves, hshown⟩, heq⟩

/-- A request that chooses some runs leaves those of them whose rows its filter lets pass, whether
it looks at base rows or waits for the full ones. -/
theorem leaves_of_verdicts {picks p : Json → Bool}
    (hpicks : ∀ run ∈ runs, verdict request.chosenFilter run = .ok (picks run))
    (hb : ∀ run ∈ runs.filter picks, request.baseRow settings catalog now run = .ok (b run))
    (hr : ∀ run ∈ (runs.filter picks).filter p, joined (b run) = .ok (r run))
    (hp : ∀ run ∈ runs.filter picks,
      verdict request.filter ((if request.filterDeferred catalog then r else b) run) = .ok (p run))
    (hall : request.filterDeferred catalog = true →
      ∀ run ∈ runs.filter picks, joined (b run) = .ok (r run)) :
    request.Leaves settings catalog now joined runs ((runs.filter picks).filter p) r := by
  cases hfilter : request.filterDeferred catalog with
  | true =>
      rw [if_pos hfilter] at hp
      refine ⟨picks, fun _ => true, p, b, hpicks, hb, fun run _ => ?_, ?_, ?_, ?_⟩
      · rw [earlyFilter, if_pos hfilter]
        rfl
      · rw [List.filter_true]
        exact hall hfilter
      · rw [List.filter_true, lateFilter, if_pos hfilter]
        exact hp
      · rw [List.filter_true]
  | false =>
      have hbase : ¬ request.filterDeferred catalog = true := ne_true_of_eq_false hfilter
      rw [if_neg hbase] at hp
      refine ⟨picks, p, fun _ => true, b, hpicks, hb, ?_, hr, fun run _ => ?_, ?_⟩
      · rwa [earlyFilter, if_neg hbase]
      · rw [lateFilter, if_neg hbase]
        rfl
      · rw [List.filter_true]

/-! ## One run for each row -/

variable {foreign : List Json}

theorem Leaves.sublist (h : request.Leaves settings catalog now joined runs found r) :
    found.Sublist runs := by
  obtain ⟨picks, passes, keeps, b, -, -, -, -, -, rfl⟩ := h
  exact List.filter_sublist.trans (List.filter_sublist.trans List.filter_sublist)

theorem Leaves.exists_base (h : request.Leaves settings catalog now joined runs found r) :
    ∀ run ∈ found, ∃ base, request.baseRow settings catalog now run = .ok base
      ∧ joined base = .ok (r run) := by
  obtain ⟨picks, passes, keeps, b, -, hb, -, hr, -, rfl⟩ := h
  intro run hrun
  have hpassed := (List.mem_filter.mp hrun).1
  exact ⟨b run, hb run (List.mem_filter.mp hpassed).1, hr run hpassed⟩

theorem forall₂_stripRow (h : ∀ run ∈ runs, ∃ base,
    request.baseRow settings catalog now run = .ok base ∧ joined base = .ok (r run)) :
    List.Forall₂ (fun run row => ∃ base full, request.baseRow settings catalog now run = .ok base
        ∧ joined base = .ok full ∧ row = request.stripRow catalog full)
      runs (runs.map fun run => request.stripRow catalog (r run)) := by
  rw [List.forall₂_map_right_iff, List.forall₂_same]
  intro run hrun
  obtain ⟨base, hbase, hfull⟩ := h run hrun
  exact ⟨base, r run, hbase, hfull, rfl⟩

/-- The rows of an early page are those of the runs that it was cut from, in some order. -/
theorem exists_perm_resorted (found : List Json) (r : Json → Json) :
    ∃ sorted : List Json, sorted.Perm found
      ∧ request.resorted settings catalog (found.map r) = sorted.map r := by
  rw [resorted]
  split
  · exact ⟨_, List.mergeSort_perm _ _, SortSpec.sort_map _ r found⟩
  · exact ⟨found, .refl found, rfl⟩

theorem JoinsBy.rows_of_page (h : request.JoinsBy settings catalog now store joined)
    (hmode : request.mode = .list)
    (hrows : (request.compile settings catalog now).execute store = .ok (.page rows)) :
    ∃ (found : List Json) (r : Json → Json), found.Nodup
      ∧ (∀ run ∈ found, run ∈ store.documents settings.runs)
      ∧ (∀ run ∈ found, ∃ base, request.baseRow settings catalog now run = .ok base
        ∧ joined base = .ok (r run))
      ∧ rows = found.map fun run => request.stripRow catalog (r run) := by
  obtain ⟨b, r, keeps, hhas, rfl⟩ := (h.execute_list hmode).mp hrows
  obtain ⟨sorted, hperm, hsorted⟩ : ∃ sorted : List Json,
      sorted.Perm (request.pageRuns settings catalog store b r keeps) ∧ _ :=
    exists_perm_resorted _ r
  have hmem : ∀ run ∈ sorted, run ∈ request.pageRuns settings catalog store b r keeps :=
    fun run => hperm.mem_iff.mp
  refine ⟨sorted, r, hperm.nodup_iff.mpr (Paging.nodup_page (h.nodup_documents.filter keeps)),
    fun run hrun => mem_of_mem_found (hmem run hrun), fun run hrun => ?_, ?_⟩
  · have hfound : run ∈ store.documents settings.runs := mem_of_mem_found (hmem run hrun)
    exact ⟨b run, hhas.base run hfound,
      hhas.joins run hfound (reaches_of_mem_pageRuns (hmem run hrun))⟩
  · rw [hsorted, List.map_map]
    rfl

/-- Each row of a response is made of one run. -/
theorem JoinsBy.rows_of_execute (h : request.JoinsBy settings catalog now store joined)
    (hmode : request.mode ≠ .count)
    (hresponse : (request.compile settings catalog now).execute store = .ok response) :
    ∃ found : List Json, found.Nodup ∧ (∀ run ∈ found, run ∈ store.documents settings.runs)
      ∧ List.Forall₂ (fun run row => ∃ base full,
          request.baseRow settings catalog now run = .ok base ∧ joined base = .ok full
          ∧ row = request.stripRow catalog full) found response.rows := by
  cases hcase : request.mode with
  | count => exact absurd hcase hmode
  | list =>
      obtain ⟨rows, hrows, rfl⟩ := execute_iff.mp hresponse
      rw [hcase] at hresponse ⊢
      obtain ⟨found, r, hnodup, hmem, hr, rfl⟩ := h.rows_of_page hcase hresponse
      exact ⟨found, hnodup, hmem, forall₂_stripRow hr⟩
  | single number =>
      have hunpaged : request.mode ≠ .list := by rw [hcase]; nofun
      obtain ⟨found, r, hleaves, rfl⟩ := (h.execute_unpaged hunpaged).mp hresponse
      -- only the first row is shown
      have hfirst : ∀ run ∈ found.take 1, run ∈ found := fun run => List.mem_of_mem_take
      have hrows : (request.reply (found.map fun run => request.stripRow catalog (r run))).rows
          = (found.take 1).map fun run => request.stripRow catalog (r run) := by
        rw [reply, hcase]
        cases found <;> rfl
      refine ⟨found.take 1, (hleaves.sublist.nodup h.nodup_documents).sublist
        (List.take_sublist 1 found), fun run hrun => hleaves.sublist.subset (hfirst run hrun), ?_⟩
      rw [hrows]
      exact forall₂_stripRow fun run hrun => hleaves.exists_base run (hfirst run hrun)

end Request

end RunTable
