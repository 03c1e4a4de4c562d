import RunTable.Proofs.ListPipeline

/-!
# A list request is answered as it reads

What a list request asks for can be said in a sentence: give every run its derived columns and its
metric columns, keep the runs that pass the filter, sort them, and cut the page. This is the naive
answer, and it is what nobody would compute, since every run is read in full and joined before most
of the runs are thrown away. The compiled pipeline reads less, filters on what it has read, and puts
the join behind the cut where it can.

The two find the same runs in the same order. Run by run, the row on which the pipeline decides and
the row of the naive answer are the same at every field of the filter and at every sort key; so the
verdicts and the order are the same, and the page, which is a list of runs, is too.
-/

namespace RunTable

open Outcome MetricJoin

namespace Request

/-! ## The naive answer -/

/-- A run with its derived columns and its metric columns. -/
def naiveRow (request : Request) (settings : Settings) (catalog : Catalog) (now : Instant)
    (foreign : List Json) (run : Json) : Except EvalError Json := do
  let derived ← computeFields (request.derivedFields settings catalog now) run
  let columns := request.columnsInPlay catalog
  let cells ← columns.mapM fun column => do
    return (column.name, ← cell (seriesNames columns).names foreign run column)
  return Document.setAll cells derived

/-- The naive answer to a list request: all runs with all columns, filtered, sorted and cut. -/
def naiveAnswer (request : Request) (settings : Settings) (catalog : Catalog) (now : Instant)
    (store : Store) : Except EvalError (List Json) := do
  let rows ← (store.documents settings.runs).mapM
    (request.naiveRow settings catalog now (store.documents settings.metrics))
  let kept ← request.filter.elim (.ok rows) fun filter => selectRows filter rows
  let spec : SortSpec :=
    { primary := (request.sortField catalog).getD Field.id, direction := request.order }
  return (((spec.thenBy Field.id request.order).sort kept).drop request.skip).take
    (request.pageSize settings)

variable {request : Request} {settings : Settings} {catalog : Catalog} {now : Instant}
  {store : Store} {foreign docs : List Json} {run row : Json} {field : String}

theorem naiveRow_eq_ok : request.naiveRow settings catalog now foreign run = .ok row ↔
    ∃ derived cells, Expr.evalFields (request.derivedFields settings catalog now) run = .ok derived
      ∧ CellsOf (seriesNames (request.needs catalog).metricColumns).names foreign run
        (request.needs catalog).metricColumns cells
      ∧ row = Document.setAll cells (Document.setAll derived run) := by
  have hcells : ∀ cells, ((request.needs catalog).metricColumns.mapM fun column => do
        return (column.name, ← cell (seriesNames (request.needs catalog).metricColumns).names
          foreign run column)) = .ok cells
      ↔ CellsOf (seriesNames (request.needs catalog).metricColumns).names foreign run
        (request.needs catalog).metricColumns cells := by
    intro cells
    rw [mapM_eq_ok, CellsOf]
    constructor
    · refine fun hall => forall₂_imp_of_mem hall fun column _ entry hentry => ?_
      obtain ⟨value, hvalue, hret⟩ := bind_eq_ok.mp hentry
      cases hret
      exact ⟨rfl, hvalue⟩
    · refine fun hall => forall₂_imp_of_mem hall fun column _ entry hentry => ?_
      refine bind_eq_ok.mpr ⟨entry.2, hentry.2, ?_⟩
      rw [← hentry.1]
      rfl
  rw [naiveRow, columnsInPlay_eq, bind_eq_ok]
  constructor
  · rintro ⟨result, hresult, hrest⟩
    obtain ⟨derived, hderived, rfl⟩ := computeFields_eq_ok.mp hresult
    obtain ⟨cells, hmap, hret⟩ := bind_eq_ok.mp hrest
    exact ⟨derived, cells, hderived, (hcells cells).mp hmap, (Except.ok.inj hret).symm⟩
  · rintro ⟨derived, cells, hderived, hall, rfl⟩
    exact ⟨_, computeFields_eq_ok.mpr ⟨derived, hderived, rfl⟩,
      bind_eq_ok.mpr ⟨cells, (hcells cells).mpr hall, rfl⟩⟩

/-- The naive answer is the image of the runs that it finds. -/
theorem naiveAnswer_eq_ok : request.naiveAnswer settings catalog now store = .ok docs ↔
    ∃ (n : Json → Json) (keeps : Json → Bool),
      (∀ run ∈ store.documents settings.runs,
        request.naiveRow settings catalog now (store.documents settings.metrics) run = .ok (n run))
      ∧ (∀ run ∈ store.documents settings.runs, verdict request.filter (n run) = .ok (keeps run))
      ∧ docs = (request.found settings catalog store keeps n).map n := by
  have hcut : ∀ (n : Json → Json) (runs : List Json),
      (((request.paging settings catalog).spec.sort (runs.map n)).drop
        (request.paging settings catalog).skip).take (request.paging settings catalog).limit
      = ((request.paging settings catalog).page n runs).map n := by
    intro n runs
    rw [SortSpec.sort_map, ← List.map_drop, ← List.map_take]
    rfl
  rw [naiveAnswer, bind_eq_ok]
  constructor
  · rintro ⟨rows, hrows, hrest⟩
    obtain ⟨n, hn, rfl⟩ := mapM_eq_ok_map.mp hrows
    obtain ⟨kept, hkept, hret⟩ := bind_eq_ok.mp hrest
    obtain ⟨keeps, hkeeps, rfl⟩ := filtered_eq_ok.mp hkept
    exact ⟨n, keeps, hn, hkeeps, (Except.ok.inj hret).symm.trans (hcut n _)⟩
  · rintro ⟨n, keeps, hn, hkeeps, rfl⟩
    exact ⟨_, mapM_ok hn, bind_eq_ok.mpr ⟨_, filtered_eq_ok.mpr ⟨keeps, hkeeps, rfl⟩,
      congrArg Except.ok (hcut n _)⟩⟩

/-! ## Run by run -/

namespace WellPosed

variable (h : request.WellPosed settings catalog store)

include h

/-- In a well-posed request the naive row is the run with all columns. -/
theorem wholeRow_of_naiveRow (hrun : run ∈ store.documents settings.runs)
    (hnaive : request.naiveRow settings catalog now foreign run = .ok row) :
    request.wholeRow settings catalog now foreign run = .ok row := by
  obtain ⟨derived, cells, hderived, hcells, rfl⟩ := naiveRow_eq_ok.mp hnaive
  exact wholeRow_eq_ok.mpr
    ⟨derived, cells, hderived, (evalFields_columns (h.runs run hrun) h.series).mpr hcells, rfl⟩

/-- A run with a naive row has a base row and a full row, and away from the table of series the full
row is the same as the naive one wherever the row that was read is the same as the run. -/
theorem rows_of_naiveRow (hrun : run ∈ store.documents settings.runs)
    (hnaive : request.naiveRow settings catalog now foreign run = .ok row) :
    ∃ base full, request.baseRow settings catalog now run = .ok base
      ∧ request.fullRow catalog foreign base = .ok full
      ∧ ∀ q, Path.Apart (Path.segments tableField) q →
        (Document.getAt? q (request.shownRow catalog run) = Document.getAt? q run →
          Document.getAt? q full = Document.getAt? q row)
        ∧ (Document.SameAt q (request.shownRow catalog run) run → Document.SameAt q full row) := by
  have hwhole := h.wholeRow_of_naiveRow hrun hnaive
  obtain ⟨base, full, hbase, hfull⟩ :=
    (h.unclashing.exists_wholeRow_iff hrun).mp ⟨row, hwhole⟩
  exact ⟨base, full, hbase, hfull, fun q hq =>
    h.unclashing.sameAt_wholeRow hrun hbase hfull hwhole hq⟩

/-- A sort key is apart from the table of series, and it is read as it is stored. -/
theorem key_shownRow {key : String × Direction}
    (hkey : key ∈ (request.paging settings catalog).spec.keys) (run : Json) :
    Path.Apart (Path.segments tableField) (Path.segments key.1)
      ∧ Document.get? key.1 (request.shownRow catalog run) = Document.get? key.1 run := by
  rcases keys_paging hkey with ⟨hplay, -⟩ | hid
  · exact ⟨h.apart_table (.inl hplay),
      (h.keepsId run).get?_shownRow (mem_forcedFields_of_inPlay hplay)⟩
  · rw [hid]
    exact ⟨h.apart_table (.inr rfl), h.get?_id_shownRow⟩

end WellPosed

/-! ## Whole answers -/

/-- A list request is answered with the runs of the naive answer, in the same order, provided that
nothing is selected or that no field of the filter passes through an array. -/
theorem list_finds_naiveAnswer (h : request.WellPosed settings catalog store)
    (hmode : request.mode = .list)
    (hfields : request.selection catalog = [] ∨ ∀ field ∈ request.filterFields.names,
      ∀ run ∈ store.documents settings.runs, ∀ front, front <+: Path.segments field →
        front ≠ Path.segments field → ∀ items, Document.getAt? front run ≠ some (.arr items))
    (hnaive : request.naiveAnswer settings catalog now store = .ok docs) :
    ∃ rows, (request.compile settings catalog now).execute store = .ok (.page rows)
      ∧ rows.map (Document.get? Field.id) = docs.map (Document.get? Field.id) := by
  obtain ⟨n, keeps, hn, hkeeps, rfl⟩ := naiveAnswer_eq_ok.mp hnaive
  choose! b r hb hr hsame using fun run hrun => h.rows_of_naiveRow hrun (hn run hrun)
  have hsees : ∀ run ∈ store.documents settings.runs, request.Sees catalog run := by
    refine fun run hrun => hfields.imp_right fun hfields field hfield =>
      ⟨field, inPlay_of_filter hfield, Path.covers_iff.mpr (List.prefix_refl _), ?_⟩
    exact Document.direct_of_no_array (hfields field hfield run hrun)
  have hverdict : ∀ run ∈ store.documents settings.runs,
      verdict request.filter (r run) = .ok (keeps run) := by
    intro run hrun
    rw [← hkeeps run hrun]
    exact verdict_congr fun field hfield =>
      (hsame run hrun _ (h.apart_table (.inl (inPlay_of_filter hfield)))).2
        (h.sameAt_shownRow (hsees run hrun) hfield)
  -- the sort need not see a run as it is stored: values are compared as they are read
  have hfound : request.found settings catalog store keeps r
      = request.found settings catalog store keeps n := by
    refine Paging.page_congr fun run hrun key hkey => congrArg (Option.getD · Json.null) ?_
    obtain ⟨hapart, hread⟩ := h.key_shownRow hkey run
    exact (hsame run (List.mem_filter.mp hrun).1 _ hapart).1 hread
  obtain ⟨rows, hrows, hids⟩ := h.execute_of_rows hmode hb hr hverdict
  refine ⟨rows, hrows, ?_⟩
  rw [hids, hfound, List.map_map]
  refine List.map_congr_left fun run hrun => ?_
  have hmem := mem_of_mem_found hrun
  have hid := (hsame run hmem _ (h.apart_table (.inr rfl))).1 h.get?_id_shownRow
  exact ((h.id_fullRow hmem (hb run hmem) (hr run hmem)).2.symm.trans hid)

/-- Three runs, one of them without the series that is shown, filtered and sorted by. The other two
are stored in the other order. -/
theorem list_finds_naiveAnswer_of_three :
    let first := Json.obj [("_id", .int 3), ("info", .single "metrics" (.arr [
      .obj [("name", .str "loss"), ("id", .int 5)]]))]
    let second := Json.obj [("_id", .int 1)]
    let third := Json.obj [("_id", .int 2), ("info", .single "metrics" (.arr [
      .obj [("name", .str "loss"), ("id", .int 7)]]))]
    let store : Store := { collections := [
      ("runs", [first, second, third]),
      ("metrics", [
        .obj [("_id", .int 7), ("name", .str "loss"), ("values", .arr [.int 1])],
        .obj [("_id", .int 5), ("name", .str "loss"), ("values", .arr [.int 4, .int 2])]])] }
    let catalog : Catalog := { metricColumns := [⟨"best", "loss", .least, none⟩] }
    let request : Request := {
      select := ["best"]
      filter := some (.single "best" (.single "$gt" (.int 0)))
      sortBy := some "best"
      order := .ascending }
    ∃ rows, (request.compile {} catalog ⟨0, 0⟩).execute store = .ok (.page rows)
      ∧ rows.map (Document.get? Field.id) = [some (.int 2), some (.int 3)] := by
  intro first second third store catalog request
  have hruns : ∀ run ∈ store.documents "runs", IsRun run := by decide
  have hwell : request.WellPosed {} catalog store := .of_names (by decide)
  have hfields : ∀ field ∈ request.filterFields.names, ∀ run ∈ store.documents "runs",
      ∀ front, front <+: Path.segments field → front ≠ Path.segments field →
        ∀ items, Document.getAt? front run ≠ some (.arr items) := by
    intro field hfield run hrun front hpre hne items hread
    have hsegments : ∀ field ∈ request.filterFields.names, Path.segments field = ["best"] := by
      decide
    rw [hsegments field hfield] at hpre hne
    cases front with
    | nil =>
        rw [(hruns run hrun).eq_obj] at hread
        cases hread
    | cons s rest =>
        obtain ⟨rfl, hrest⟩ := List.cons_prefix_cons.mp hpre
        exact hne (by rw [List.prefix_nil.mp hrest])
  have hrow : ∀ {run value : Json}, cell ["loss"] (store.documents "metrics") run
        ⟨"best", "loss", .least, none⟩ = .ok value →
      request.naiveRow {} catalog ⟨0, 0⟩ (store.documents "metrics") run
        = .ok (Document.set "best" value run) := by
    intro run value hcell
    exact naiveRow_eq_ok.mpr ⟨[], [("best", value)], rfl, .cons ⟨rfl, hcell⟩ .nil, rfl⟩
  have hrows : (store.documents "runs").mapM
      (request.naiveRow {} catalog ⟨0, 0⟩ (store.documents "metrics")) = .ok [
        Document.set "best" (.int 2) first,
        Document.set "best" .null second,
        Document.set "best" (.int 1) third] :=
    mapM_eq_ok.mpr (.cons (hrow rfl) (.cons (hrow rfl) (.cons (hrow rfl) .nil)))
  have hkept : selectRows (.single "best" (.single "$gt" (.int 0))) [
        Document.set "best" (.int 2) first,
        Document.set "best" .null second,
        Document.set "best" (.int 1) third] = .ok [
        Document.set "best" (.int 2) first,
        Document.set "best" (.int 1) third] := rfl
  have hnaive : request.naiveAnswer {} catalog ⟨0, 0⟩ store = .ok
      ((SortSpec.sort ⟨"best", .ascending, [(Field.id, .ascending)]⟩ [
        Document.set "best" (.int 2) first,
        Document.set "best" (.int 1) third]).take 200) :=
    bind_eq_ok.mpr ⟨_, hrows, bind_eq_ok.mpr ⟨_, hkept, rfl⟩⟩
  rw [SortSpec.sort_pair, if_neg (by decide)] at hnaive
  obtain ⟨rows, hrows, hids⟩ := list_finds_naiveAnswer hwell rfl (.inr hfields) hnaive
  exact ⟨rows, hrows, hids.trans rfl⟩

end Request

end RunTable
