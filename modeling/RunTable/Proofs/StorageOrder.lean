import RunTable.Proofs.RowIdentity

/-!
# Answers do not depend on the order in which runs are stored

Everything in a pipeline follows the order of its rows: a filter keeps it, the join gathers its rows
by their first occurrence, and a sort leaves level rows as they came. But nothing is decided by it.
A stage that works row by row hands a rearrangement of its rows on. The one place where rows are
told apart by where they stand is the cut of a page, and there they are sorted by the identifier
last of all, which no two of them share. And where a request is for one run, or a reference for one
document, at most one has the identifier that is asked for.
-/

namespace RunTable

open Outcome MetricJoin

variable {runs runs' : List Json} {g : Json → Json}

/-! ## Rearranged rows -/

/-- What is picked does not depend on the order if at most one is. -/
theorem filter_eq_of_perm {p : Json → Bool} (hperm : runs.Perm runs')
    (hone : ∀ a ∈ runs, ∀ b ∈ runs, p a = true → p b = true → a = b) :
    runs.filter p = runs'.filter p := by
  refine List.Perm.eq_of_pairwise (fun a b ha hb _ _ => ?_)
    (List.pairwise_of_forall fun _ _ => trivial) (List.pairwise_of_forall fun _ _ => trivial)
    (hperm.filter p)
  obtain ⟨ha, hpa⟩ := List.mem_filter.mp ha
  obtain ⟨hb, hpb⟩ := List.mem_filter.mp hb
  exact hone a ha b (hperm.mem_iff.mpr hb) hpa hpb

/-- A page does not depend on the order of the rows that it is cut from, if the identifier is a sort
key and tells them apart. -/
theorem Paging.page_perm {paging : Paging} {direction : Direction}
    (hkey : (Field.id, direction) ∈ paging.spec.keys) (hids : UniqueIds runs)
    (hg : ∀ run ∈ runs, idOf (g run) = idOf run) (hperm : runs.Perm runs') :
    paging.page g runs = paging.page g runs' := by
  have hsorted : ∀ runs : List Json,
      (runs.mergeSort fun a b => paging.spec.cmp (g a) (g b) != .gt).Pairwise
        fun a b => (paging.spec.cmp (g a) (g b) != .gt) = true := by
    intro runs
    have h := SortSpec.pairwise_sort paging.spec (runs.map g)
    rwa [SortSpec.sort_map, List.pairwise_map] at h
  rw [page, page]
  congr 2
  refine List.Perm.eq_of_pairwise (fun a b ha hb hab hba => ?_) (hsorted runs) (hsorted runs')
    ((List.mergeSort_perm _ _).trans (hperm.trans (List.mergeSort_perm _ _).symm))
  have ha : a ∈ runs := List.mem_mergeSort.mp ha
  have hb : b ∈ runs := hperm.mem_iff.mpr (List.mem_mergeSort.mp hb)
  refine hids.eq_of_cmp ha hb ?_
  have hlevel := SortSpec.cmp_eq_of_le hab hba
  rw [← hg a ha, ← hg b hb]
  exact SortSpec.cmpBy_eq_eq_iff.mp hlevel _ hkey

theorem Paging.id_mem_keys (sortField : Option String) (direction : Direction) (skip limit : Nat)
    (context : PagingContext) : ∃ direction',
      (Field.id, direction') ∈ (plan sortField direction skip limit context).spec.keys := by
  show ∃ direction', (Field.id, direction') ∈ (SortSpec.thenBy _ Field.id direction).keys
  by_cases hid : Field.id ∈ Table.names
      (SortSpec.keys { primary := sortField.getD Field.id, direction })
  · rw [SortSpec.keys_thenBy_of_mem hid]
    obtain ⟨⟨field, direction'⟩, hmem, rfl⟩ := List.mem_map.mp hid
    exact ⟨direction', hmem⟩
  · rw [SortSpec.keys_thenBy_of_not_mem hid]
    exact ⟨direction, List.mem_append_right _ List.mem_cons_self⟩

/-! ## Stores with rearranged runs -/

/-- Two stores that differ in the order of the runs only. -/
structure Store.Rearranges (settings : Settings) (store store' : Store) : Prop where
  runs : (store.documents settings.runs).Perm (store'.documents settings.runs)
  others : ∀ collection ≠ settings.runs, store.documents collection = store'.documents collection

variable {settings : Settings} {store store' : Store}

namespace Store.Rearranges

theorem symm (h : Rearranges settings store store') : Rearranges settings store' store :=
  ⟨h.runs.symm, fun collection hne => (h.others collection hne).symm⟩

theorem hasRecords (h : Rearranges settings store store') (hruns : store.HasRecords settings) :
    store'.HasRecords settings := fun run hrun => hruns run (h.runs.mem_iff.mpr hrun)

/-- A reference finds the same documents, also where it refers to runs. -/
theorem hits_eq (h : Rearranges settings store store') (hruns : store.HasRecords settings)
    (hids : UniqueIds (store.documents settings.runs)) (names : List String) (collection : String)
    (row : Json) :
    (seriesLookup names collection).hits (store.documents settings.metrics) row
      = (seriesLookup names collection).hits (store'.documents settings.metrics) row := by
  by_cases hsame : settings.metrics = settings.runs
  · have hfilter : ∀ reference : Json,
        (store.documents settings.metrics).filter (isSeries names reference)
          = (store'.documents settings.metrics).filter (isSeries names reference) := by
      intro reference
      have hequal : ∀ run, isSeries names reference run = true →
          (idOf run).equal reference = true := by
        intro run hrun
        rw [isSeries, Bool.and_eq_true] at hrun
        obtain ⟨id, hid, hequal⟩ := (Option.any_eq_true _ _).mp hrun.1
        rwa [idOf, Document.getOrNull, get?_id, hid]
      rw [hsame]
      refine filter_eq_of_perm h.runs fun a ha b hb hpa hpb => ?_
      exact hids.eq_of_equal (fun run hrun => (hruns run hrun).2) ha hb (hequal a hpa)
        (hequal b hpb)
    rw [Lookup.hits, Lookup.hits, accepts_seriesLookup]
    cases Document.getOrNull (seriesLookup names collection).localPath row <;>
      first | rfl | exact hfilter _
  · rw [h.others settings.metrics hsame]

end Store.Rearranges

namespace Request

variable {request : Request} {catalog : Catalog} {now : Instant}
  {joined : Json → Except EvalError Json} {rows found : List Json} {b r : Json → Json}
  {response : Response}

theorem recordRow_rearranged (h : store.Rearranges settings store')
    (hruns : store.HasRecords settings) (hids : UniqueIds (store.documents settings.runs)) :
    request.recordRow settings catalog (store.documents settings.metrics)
      = request.recordRow settings catalog (store'.documents settings.metrics) := by
  funext base
  rw [recordRow, recordRow, joinedRow, joinedRow, tabledRow_congr (h.hits_eq hruns hids _ _)]

/-! ## Pages -/

/-- The same runs are found where rows have the identifiers of their runs. -/
theorem found_rearranged (h : store.Rearranges settings store')
    (hids : UniqueIds (store.documents settings.runs)) {keeps : Json → Bool}
    (hg : ∀ run ∈ (store.documents settings.runs).filter keeps, idOf (g run) = idOf run) :
    request.found settings catalog store keeps g
      = request.found settings catalog store' keeps g := by
  obtain ⟨direction, hkey⟩ : ∃ direction,
      (Field.id, direction) ∈ (request.paging settings catalog).spec.keys :=
    Paging.id_mem_keys _ _ _ _ _
  exact Paging.page_perm hkey (hids.filter keeps) hg (h.runs.filter keeps)

/-- The join does the same to a row wherever the runs stand. -/
theorem joinsBy_rearranged (h : store.Rearranges settings store')
    (hruns : store.HasRecords settings) (hids : UniqueIds (store.documents settings.runs)) :
    request.JoinsBy settings catalog now store'
      (request.recordRow settings catalog (store.documents settings.metrics)) := by
  rw [recordRow_rearranged h hruns hids]
  exact joinsBy_of_records (h.hasRecords hruns) (hids.perm h.runs).nodup_ids

theorem page_of_rearranged (h : store.Rearranges settings store')
    (hruns : store.HasRecords settings) (hids : UniqueIds (store.documents settings.runs))
    (hcolumns : catalog.SparesId) (hmode : request.mode = .list)
    (hrows : (request.compile settings catalog now).execute store = .ok (.page rows)) :
    (request.compile settings catalog now).execute store' = .ok (.page rows) := by
  have hjoins : request.JoinsBy settings catalog now store
      (request.recordRow settings catalog (store.documents settings.metrics)) :=
    joinsBy_of_records hruns hids.nodup_ids
  have hjoins' : request.JoinsBy settings catalog now store' _ :=
    joinsBy_rearranged h hruns hids
  have hall : ∀ {p : Json → Prop}, (∀ run ∈ store.documents settings.runs, p run) →
      ∀ run ∈ store'.documents settings.runs, p run :=
    fun hp run hrun => hp run (h.runs.mem_iff.mpr hrun)
  obtain ⟨b, r, keeps, hhas, rfl⟩ := (hjoins.execute_list hmode).mp hrows
  have hfound : request.found settings catalog store keeps b
      = request.found settings catalog store' keeps b :=
    found_rearranged h hids fun run hrun =>
      (idOf_baseRow hruns (List.mem_filter.mp hrun).1
        (hhas.base run (List.mem_filter.mp hrun).1)).2
  have hpage : request.pageRuns settings catalog store b r keeps
      = request.pageRuns settings catalog store' b r keeps := by
    refine found_rearranged h hids fun run hrun => ?_
    obtain ⟨hmem, hkept⟩ := List.mem_filter.mp hrun
    exact (hhas.idOf_row hruns hcolumns hmem fun hlate => reaches_of_cutsLate hlate hkept).2
  refine (hjoins'.execute_list hmode).mpr
    ⟨b, r, keeps, ⟨hall hhas.base, ?_, hall hhas.verdicts⟩, by rw [hpage]⟩
  refine hall fun run hrun hreach => hhas.joins run hrun ?_
  rwa [Reaches, hfound]

/-! ## Requests without a page -/

/-- The same runs are left, and if one was chosen by its identifier, in the same order. -/
theorem Leaves.rearranged (h : store.Rearranges settings store')
    (hruns : store.HasRecords settings) (hids : UniqueIds (store.documents settings.runs))
    (hleaves : request.Leaves settings catalog now joined (store.documents settings.runs) found r) :
    ∃ found', request.Leaves settings catalog now joined (store'.documents settings.runs) found' r
      ∧ found.Perm found' ∧ ∀ id, request.mode = .single id → found = found' := by
  obtain ⟨picks, passes, keeps, b, hpicks, hb, hpasses, hr, hkeeps, rfl⟩ := hleaves
  have hpicked : ((store.documents settings.runs).filter picks).Perm
      ((store'.documents settings.runs).filter picks) := h.runs.filter picks
  have hpassed := hpicked.filter passes
  refine ⟨_, ⟨picks, passes, keeps, b, fun run hrun => hpicks run (h.runs.mem_iff.mpr hrun),
    fun run hrun => hb run (hpicked.mem_iff.mpr hrun),
    fun run hrun => hpasses run (hpicked.mem_iff.mpr hrun),
    fun run hrun => hr run (hpassed.mem_iff.mpr hrun),
    fun run hrun => hkeeps run (hpassed.mem_iff.mpr hrun), rfl⟩, hpassed.filter keeps, ?_⟩
  intro id hmode
  rw [filter_eq_of_perm h.runs fun a ha b hb hpa hpb => ?_]
  have hequal : ∀ run ∈ store.documents settings.runs, picks run = true →
      (idOf run).equal (.int id) = true := by
    intro run hrun hpick
    have hverdict := hpicks run hrun
    rw [chosenFilter, hmode, hpick] at hverdict
    exact Except.ok.inj ((holds_id (hruns run hrun).1 (hruns run hrun).2 id).symm.trans hverdict)
  exact hids.eq_of_equal (fun run hrun => (hruns run hrun).2) ha hb (hequal a ha hpa)
    (hequal b hb hpb)

theorem reply_of_rearranged (h : store.Rearranges settings store')
    (hruns : store.HasRecords settings) (hids : UniqueIds (store.documents settings.runs))
    (hmode : request.mode ≠ .list)
    (hresponse : (request.compile settings catalog now).execute store = .ok response) :
    (request.compile settings catalog now).execute store' = .ok response := by
  have hjoins : request.JoinsBy settings catalog now store
      (request.recordRow settings catalog (store.documents settings.metrics)) :=
    joinsBy_of_records hruns hids.nodup_ids
  obtain ⟨found, r, hleaves, rfl⟩ := (hjoins.execute_unpaged hmode).mp hresponse
  obtain ⟨found', hleaves', hperm, hsingle⟩ := hleaves.rearranged h hruns hids
  have hjoins' : request.JoinsBy settings catalog now store' _ :=
    joinsBy_rearranged h hruns hids
  refine (hjoins'.execute_unpaged hmode).mpr ⟨found', r, hleaves', ?_⟩
  cases hcase : request.mode with
  | list => exact absurd hcase hmode
  | single id => rw [hsingle id hcase]
  | count => simp only [reply, hcase, List.length_map, hperm.length_eq]

theorem response_of_rearranged (h : store.Rearranges settings store')
    (hruns : store.HasRecords settings) (hids : UniqueIds (store.documents settings.runs))
    (hcolumns : catalog.SparesId)
    (hresponse : (request.compile settings catalog now).execute store = .ok response) :
    (request.compile settings catalog now).execute store' = .ok response := by
  by_cases hmode : request.mode = .list
  · obtain ⟨rows, -, rfl⟩ := execute_iff.mp hresponse
    rw [hmode] at hresponse ⊢
    exact page_of_rearranged h hruns hids hcolumns hmode hresponse
  · exact reply_of_rearranged h hruns hids hmode hresponse

/-- Answers do not depend on storage order. On two stores that differ in the order of the runs only
a request fails both times or has the same response. -/
theorem execute_rearranged (hruns : store.HasRecords settings)
    (hids : UniqueIds (store.documents settings.runs)) (hcolumns : catalog.SparesId)
    (h : store.Rearranges settings store') :
    ((request.compile settings catalog now).execute store).toOption
      = ((request.compile settings catalog now).execute store').toOption := by
  refine Option.ext fun response => ?_
  rw [toOption_eq_some, toOption_eq_some]
  exact ⟨response_of_rearranged h hruns hids hcolumns,
    response_of_rearranged h.symm (h.hasRecords hruns) (hids.perm h.runs) hcolumns⟩

/-- Two runs that are level in the metric column by which they are sorted, stored either way. -/
theorem execute_rearranged_of_two :
    let run := fun id : Int => Json.obj [("_id", .int id),
      ("info", .single "metrics" (.arr [.obj [("name", .str "loss"), ("id", .int 7)]]))]
    let row := fun id : Int => Json.obj [("_id", .int id),
      ("info", .single "metrics" (.arr [.obj [("name", .str "loss"), ("id", .int 7)]])),
      ("best", .int 4)]
    let series := Json.obj [("_id", .int 7), ("name", .str "loss"), ("values", .arr [.int 4])]
    let store : Store := { collections := [("runs", [run 2, run 1]), ("metrics", [series])] }
    let store' : Store := { collections := [("runs", [run 1, run 2]), ("metrics", [series])] }
    let catalog : Catalog := { metricColumns := [⟨"best", "loss", .least, none⟩] }
    let request : Request := { sortBy := some "best", order := .ascending }
    (request.compile {} catalog ⟨0, 0⟩).execute store' = .ok (.page [row 1, row 2])
      ∧ (request.compile {} catalog ⟨0, 0⟩).execute store = .ok (.page [row 1, row 2]) := by
  intro run row series store store' catalog request
  have hruns : store.HasRecords {} := List.forall_mem_cons.mpr
    ⟨⟨by decide, rfl⟩, List.forall_mem_singleton.mpr ⟨by decide, rfl⟩⟩
  have hids : UniqueIds (store.documents "runs") := by
    rw [UniqueIds]
    decide
  have hcolumns : catalog.SparesId := by
    intro column hcolumn
    rw [List.mem_singleton.mp hcolumn]
    decide
  have hstores : store.Rearranges {} store' := by
    refine ⟨List.Perm.swap _ _ _, fun collection hne => ?_⟩
    have hne : (collection == "runs") = false := beq_eq_false_iff_ne.mpr hne
    simp only [Store.documents, List.lookup_cons, hne, store, store']
  have hjoins : request.JoinsBy {} catalog ⟨0, 0⟩ store' _ := joinsBy_rearranged hstores hruns hids
  let full := fun doc : Json => Json.obj (doc.members
    ++ [("__metrics", .single "loss" series), ("best", .int 4)])
  have hbase : ∀ doc ∈ [run 1, run 2], request.baseRow {} catalog ⟨0, 0⟩ doc = .ok doc := by
    subst catalog request
    exact fun doc _ => rfl
  have hfull : ∀ doc ∈ [run 1, run 2], request.recordRow {} catalog [series] doc
      = .ok (full doc) := by
    subst catalog request full series run
    exact List.forall_mem_cons.mpr ⟨rfl, List.forall_mem_singleton.mpr rfl⟩
  have hfound : request.found {} catalog store' (fun _ => true) full = [run 1, run 2] :=
    congrArg (List.take 200) (List.mergeSort_of_pairwise (by decide))
  have hpage : (request.compile {} catalog ⟨0, 0⟩).execute store'
      = .ok (.page [row 1, row 2]) := by
    refine (hjoins.execute_late rfl (by decide) (by decide)).mpr
      ⟨id, hbase, fun _ => true, fun _ _ => rfl, full, hfull, ?_⟩
    rw [hfound]
    rfl
  have hsame : ((request.compile {} catalog ⟨0, 0⟩).execute store).toOption = _ :=
    execute_rearranged hruns hids hcolumns hstores
  rw [hpage, toOption_eq_some.mpr rfl] at hsame
  exact ⟨hpage, toOption_eq_some.mp hsame⟩

end Request

end RunTable
