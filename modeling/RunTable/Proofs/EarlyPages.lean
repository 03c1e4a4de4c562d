import Mathlib.Data.List.Nodup
import RunTable.Proofs.KeptFields
import RunTable.Proofs.MetricCells
import RunTable.Proofs.RowStages

/-!
# A page may be cut before the join

A join costs time for each row, and most rows are not on the page. So where neither the sort nor the
filter looks at a joined column, the page is cut first, and only its rows are joined. That this
gives the same page needs two facts. A join makes of each run a row of its own, whatever other runs
are there, so it cannot fail on fewer runs where it succeeds on all. And it leaves the sort keys of
a row alone, so the page is the same and is in order already when it is sorted again.

The second fact has an exception. The name of a column may be apart from the sort key and yet write
over what is read there: where both lead through one array, the key reads an item of it, and the
column puts an object in its place. So the rows must not have such an array where the key has a
value, and a request that sorts by an item of an array beside which a column is written may get
another page.
-/

namespace RunTable.MetricJoin

open Outcome

variable {columns : List MetricColumn} {foreign : List Json} {field : String} {run row : Json}

/-- Whether columns leave the value at a field of a row: there is none, or no array stands where a
column and the field lead together. -/
def SparesValue (columns : List MetricColumn) (field : String) (row : Json) : Prop :=
  Document.getOrNull field row = .null ∨ ∀ column ∈ columns,
    Document.NoSharedArray (Path.segments column.name) (Path.segments field) row

/-- A column beside the identifier leaves it. -/
theorem sparesValue_id (h : IsRun row) (hcolumns : ∀ column ∈ columns,
    Path.Apart (Path.segments column.name) (Path.segments Field.id)) :
    SparesValue columns Field.id row := by
  refine .inr fun column hcolumn => ?_
  refine Document.noSharedArray_of_head?_ne h.isObject fun hhead => ?_
  rw [segments_id] at hhead
  refine (hcolumns column hcolumn).2 ?_
  rw [segments_id]
  exact Path.prefix_of_head? hhead

/-- A join keeps the value at a field that is apart from its columns and that they leave. -/
theorem getOrNull_joinRow (h : IsRun run) (hrow : joinRow columns foreign run = .ok row)
    (htable : Path.covers tableField field = false)
    (hcolumns : ∀ column ∈ columns, Path.Apart (Path.segments column.name) (Path.segments field))
    (hspares : SparesValue columns field run) :
    Document.getOrNull field row = Document.getOrNull field run := by
  obtain ⟨cells, hcells, rfl⟩ := computeFields_eq_ok.mp hrow
  have happart : Path.Apart (Path.segments tableField) (Path.segments field) :=
    Path.apart_of_not_covers segments_tableField htable
  have hnames : ∀ path ∈ Table.names cells, ∃ column ∈ columns, column.name = path := by
    intro path hpath
    rw [names_columnFields hcells] at hpath
    exact List.mem_map.mp hpath
  have hcells : ∀ path ∈ Table.names cells,
      Path.Apart (Path.segments path) (Path.segments field) := by
    intro path hpath
    obtain ⟨column, hcolumn, rfl⟩ := hnames path hpath
    exact hcolumns column hcolumn
  generalize htable : withTable (seriesNames columns).names foreign run = tabled
  have htabled : Document.getAt? (Path.segments field) tabled = Document.get? field run := by
    rw [← htable]
    exact (sameAt_withTable h happart).1
  rcases hspares with hnull | hno
  -- a value that is null may be lost, which makes no difference
  · rw [hnull]
    rcases Document.getAt?_setAll_or_none hcells with heq | hnone
    · rw [Document.getOrNull, Document.get?, heq, htabled]
      exact hnull
    · rw [Document.getOrNull, Document.get?, hnone]
      rfl
  · have hkept : Document.getAt? (Path.segments field) (Document.setAll cells tabled)
        = Document.getAt? (Path.segments field) tabled := by
      refine Document.getAt?_setAll_of_noSharedArray hcells fun path hpath => ?_
      obtain ⟨column, hcolumn, rfl⟩ := hnames path hpath
      rw [← htable, withTable_eq_set h]
      exact (hno column hcolumn).setAt happart _
    rw [Document.getOrNull, Document.get?, hkept, htabled]
    rfl

/-- A page that is cut before the join has the rows of a page that is cut behind it. If the join of
all runs succeeds, so does the join of those on the page, and sorting again what was joined changes
nothing, provided that the columns leave the value at the sort key of each run. -/
theorem early_page_eq_late_page (collections : Collections) (collection : String)
    (columns : List MetricColumn) (sortField : Option String) (direction : Direction)
    (skip limit : Nat) {runs rows : List Json} (hruns : ∀ run ∈ runs, IsRun run)
    (hids : (runs.map fun run => (idOf run).text).Nodup)
    (hid : ∀ column ∈ columns, Path.Apart (Path.segments column.name) (Path.segments Field.id))
    (hsort : ∀ field ∈ sortField, Path.covers tableField field = false ∧ ∀ column ∈ columns,
      Path.Apart (Path.segments column.name) (Path.segments field))
    (hvalues : ∀ field ∈ sortField, ∀ run ∈ runs, SparesValue columns field run)
    (hlate : Pipeline.run collections (stages columns collection
      ++ (Paging.plan sortField direction skip limit { join := true }).cutStages) runs
        = .ok rows) :
    Pipeline.run collections
      ((Paging.plan sortField direction skip limit { join := true }).earlyStages
        ++ stages columns collection
        ++ (Paging.plan sortField direction skip limit { join := true }).resortStage?.toList) runs
      = .ok rows := by
  generalize hpaging : Paging.plan sortField direction skip limit { join := true } = paging
    at hlate ⊢
  have hearly : paging.earlyStages = paging.cutStages := by
    rw [← hpaging]
    rfl
  have hresort : paging.resortStage? = some (.sort paging.spec) := by
    rw [← hpaging]
    rfl
  -- behind the join the rows are images of the runs, with the sort keys of these
  rw [Pipeline.run_append, run_stages hruns hids] at hlate
  obtain ⟨joined, hjoined, hcut⟩ := bind_eq_ok.mp hlate
  obtain ⟨r, hr, rfl⟩ := mapM_eq_ok_map.mp hjoined
  have hkeys : ∀ run ∈ runs, ∀ key ∈ paging.spec.keys,
      Document.getOrNull key.1 (r run) = Document.getOrNull key.1 run := by
    intro run hrun key hkey
    have hisRun := hruns run hrun
    rw [← hpaging] at hkey
    rcases Paging.keys_plan hkey with hfield | hfield
    · obtain ⟨htable, hcolumns⟩ := hsort key.1 hfield
      exact getOrNull_joinRow hisRun (hr run hrun) htable hcolumns (hvalues key.1 hfield run hrun)
    · rw [hfield]
      exact getOrNull_joinRow hisRun (hr run hrun) (by decide) hid (sparesValue_id hisRun hid)
  have hpage : paging.page id runs = paging.page r runs :=
    Paging.page_congr fun run hrun key hkey => (hkeys run hrun key hkey).symm
  rw [run_cutStages, Except.ok.injEq] at hcut
  -- so the same page is cut before the join, and it is still in order behind it
  have hmem : ∀ run ∈ paging.page id runs, run ∈ runs := fun run => Paging.mem_of_mem_page
  have hpageIds : ((paging.page id runs).map fun run => (idOf run).text).Nodup :=
    (Paging.nodup_page (List.Nodup.of_map _ hids)).map_on fun a ha b hb =>
      List.inj_on_of_nodup_map hids (hmem a ha) (hmem b hb)
  rw [hearly, hresort, List.append_assoc, Pipeline.run_append, run_cutStages_self, ok_bind,
    Pipeline.run_append, run_stages (fun run hrun => hruns run (hmem run hrun)) hpageIds,
    mapM_ok fun run hrun => hr run (hmem run hrun), ok_bind]
  refine Pipeline.run_single.trans (congrArg Except.ok ?_)
  have hordered : paging.spec.sort ((paging.page id runs).map r) = (paging.page id runs).map r :=
    Paging.sort_page fun run hrun => hkeys run (hmem run hrun)
  rw [hordered, hpage]
  exact hcut

/-- The middle one of three runs in the order of a setting, shown with a metric. -/
theorem early_page_eq_late_page_of_three :
    let run := fun (id rate : Int) => Json.obj [("_id", .int id),
      ("config", .single "rate" (.int rate)), ("info", .single "metrics" (.arr [
        .obj [("name", .str "loss"), ("id", .int 7)]]))]
    let runs := [run 1 30, run 2 10, run 3 20]
    let series := [Json.obj [("_id", .int 7), ("name", .str "loss"), ("values", .arr [.int 4])]]
    let join := stages [⟨"best", "loss", .least, none⟩] "metrics"
    let paging := Paging.plan (some "config.rate") .ascending 1 1 { join := true }
    ∃ rows, Pipeline.run (fun _ => series) (join ++ paging.cutStages) runs = .ok rows
      ∧ Pipeline.run (fun _ => series) (paging.earlyStages ++ join ++ paging.resortStage?.toList)
        runs = .ok rows := by
  intro run runs series join paging
  have hruns : ∀ run ∈ runs, IsRun run := by decide
  have hsort : ∀ field ∈ some "config.rate", Path.covers tableField field = false
      ∧ ∀ column ∈ [(⟨"best", "loss", .least, none⟩ : MetricColumn)],
        Path.Apart (Path.segments column.name) (Path.segments field) := by decide
  have hvalues : ∀ field ∈ some "config.rate", ∀ run ∈ runs,
      SparesValue [⟨"best", "loss", .least, none⟩] field run := by
    intro field hfield run hrun
    cases hfield
    have hheads : ∀ column ∈ [(⟨"best", "loss", .least, none⟩ : MetricColumn)],
        (Path.segments column.name).head? ≠ (Path.segments "config.rate").head? := by decide
    exact .inr fun column hcolumn =>
      Document.noSharedArray_of_head?_ne (hruns run hrun).isObject (hheads column hcolumn)
  obtain ⟨joined, hjoined⟩ : ∃ joined, Pipeline.run (fun _ => series) join runs = .ok joined :=
    ⟨_, rfl⟩
  have hlate : Pipeline.run (fun _ => series) (join ++ paging.cutStages) runs
      = .ok (paging.page id joined) := by
    rw [Pipeline.run_append, hjoined]
    exact run_cutStages_self joined
  exact ⟨_, hlate, early_page_eq_late_page (fun _ => series) "metrics"
    [⟨"best", "loss", .least, none⟩] (some "config.rate") .ascending 1 1 hruns (by decide)
    (by decide) hsort hvalues hlate⟩

/-- A column beside the sort key can change the page, if both lead through one array. -/
theorem early_page_ne_late_page :
    let column : MetricColumn := ⟨"a.b", "loss", .least, none⟩
    let runs := [Json.obj [("_id", .int 1), ("a", .arr [.int 2])],
      .obj [("_id", .int 2), ("a", .arr [.int 1])]]
    let paging := Paging.plan (some "a.0") .ascending 0 1 { join := true }
    (∀ run ∈ runs, IsRun run) ∧ (runs.map fun run => (idOf run).text).Nodup
    ∧ Path.Apart (Path.segments column.name) (Path.segments Field.id)
    ∧ Path.Apart (Path.segments column.name) (Path.segments "a.0")
    ∧ Path.covers tableField "a.0" = false
    ∧ ∃ rows rows',
      Pipeline.run (fun _ => []) (stages [column] "metrics" ++ paging.cutStages) runs = .ok rows
      ∧ Pipeline.run (fun _ => [])
        (paging.earlyStages ++ stages [column] "metrics" ++ paging.resortStage?.toList) runs
          = .ok rows'
      ∧ rows.map (fun row => (idOf row).text) = ["1"]
      ∧ rows'.map (fun row => (idOf row).text) = ["2"] := by
  intro column runs paging
  let row := fun id : Int => Json.obj [("_id", .int id), ("a", .single "b" .null),
    (tableField, .single unmatchedName .null)]
  let first := Json.obj [("_id", .int 1), ("a", .arr [.int 2])]
  let second := Json.obj [("_id", .int 2), ("a", .arr [.int 1])]
  refine ⟨by decide, by decide, by decide, by decide, by decide, [row 1], [row 2], ?_, ?_,
    by decide, by decide⟩
  -- behind the join both sort keys are null, so the identifiers decide
  · have hjoined : Pipeline.run (fun _ => []) (stages [⟨"a.b", "loss", .least, none⟩] "metrics")
        runs = .ok [row 1, row 2] := rfl
    have hsort : paging.spec.sort [row 1, row 2] = [row 1, row 2] := by
      rw [SortSpec.sort_pair, if_pos (by decide)]
    rw [Pipeline.run_append, hjoined, ok_bind, run_cutStages_self]
    exact congrArg (fun rows => Except.ok (rows.take 1)) hsort
  -- before it the second run has the lower key
  · have hcut : paging.earlyStages = paging.cutStages := rfl
    have hsort : paging.spec.sort runs = [second, first] :=
      (SortSpec.sort_pair paging.spec first second).trans (if_neg (by decide))
    have hpage : paging.page id runs = [second] := congrArg (List.take 1) hsort
    have hjoined : Pipeline.run (fun _ => []) (stages [⟨"a.b", "loss", .least, none⟩] "metrics")
        [second] = .ok [row 2] := rfl
    rw [hcut, List.append_assoc, Pipeline.run_append, run_cutStages_self, hpage, ok_bind,
      Pipeline.run_append, hjoined, ok_bind]
    exact Pipeline.run_single.trans (congrArg Except.ok (List.mergeSort_singleton _))

end RunTable.MetricJoin
