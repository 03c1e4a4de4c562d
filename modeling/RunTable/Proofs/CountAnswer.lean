import RunTable.Proofs.Overlays
import RunTable.Proofs.SelectionIndependence
import RunTable.Proofs.UnpagedPipelines

/-!
# Counting and listing

A count tells how many rows a list would show if it showed all of them. It is compiled from the
filter alone, so counts by one filter have one pipeline. A list also sorts, and to sort by a column
it may have to derive or to join that column, which a count does without. So the two filter
different rows, and the count is right if the sort column makes no difference to what the filter
sees.

There are three ways in which it can make one: a derived duration hides what is stored below it; the
series of the column is looked up as well, and goes into the table of series; and the column is
written over an array that is in its way. `Comparable` keeps clear of these, and `count_disagrees`
has a store for each.
-/

namespace RunTable

open Outcome MetricJoin

namespace Request

variable {request count list : Request} {settings : Settings} {catalog : Catalog} {now : Instant}
  {store : Store} {foreign rows : List Json} {run row base : Json} {field : String}
  {column : MetricColumn} {cells cells' : List (String × Json)}

/-! ## Requests that select nothing -/

theorem baseRow_of_selects_all (hall : request.selection catalog = []) :
    request.baseRow settings catalog now run = .ok base
      ↔ ∃ cells, Expr.evalFields (request.derivedFields settings catalog now) run = .ok cells
        ∧ base = Document.setAll cells run := by
  rw [baseRow, shownRow_of_selects_all hall, computeFields_eq_ok]

theorem isRun_of_selects_all (hall : request.selection catalog = []) (hrun : IsRun run)
    (hbase : request.baseRow settings catalog now run = .ok base) :
    IsRun base ∧ idOf base = idOf run := by
  obtain ⟨cells, hcells, rfl⟩ := (baseRow_of_selects_all hall).mp hbase
  have hheads := head?_derivedFields (names_evalFields hcells)
  obtain ⟨-, hid⟩ := hrun.isRecord.setAll fun path hpath => hheads path hpath _ List.mem_cons_self
  exact ⟨hrun.setAll hheads, by rw [idOf_eq, idOf_eq, hid]⟩

theorem joinsBy_of_selects_all (hall : request.selection catalog = [])
    (hruns : ∀ run ∈ store.documents settings.runs, IsRun run)
    (hids : ((store.documents settings.runs).map fun run => (idOf run).text).Nodup) :
    request.JoinsBy settings catalog now store
      (request.fullRow catalog (store.documents settings.metrics)) :=
  joinsBy_fullRow (nodup_ids_iff.mp hids) fun run hrun _ hbase =>
    isRun_of_selects_all hall (hruns run hrun) hbase

/-! ## What a count needs of what a list needs -/

/-- A count beside a list that shows all columns from the first row on, with the same filter. -/
structure Counts (count list : Request) : Prop where
  count_mode : count.mode = .count
  list_mode : list.mode = .list
  filter : count.filter = list.filter
  select : list.select = []
  skip : list.skip = 0

def filtersBy (request : Request) (field : String) : Bool :=
  decide (field ∈ request.filterFields.names)

/-- The values of the columns that a request filters by. -/
def filtered (request : Request) (cells : List (String × Json)) : List (String × Json) :=
  cells.filter fun cell => request.filtersBy cell.1

/-- A run with derived columns, a table of series and metric columns. -/
def assembled (names : List String) (foreign : List Json) (cells cells' : List (String × Json))
    (run : Json) : Json :=
  Document.setAll cells' (withTable names foreign (Document.setAll cells run))

namespace Counts

variable (h : Counts count list)

include h

theorem filterFields_eq : count.filterFields = list.filterFields := by
  rw [filterFields, filterFields, h.filter]

theorem selection_count : count.selection catalog = [] := if_pos h.count_mode

theorem selection_list : list.selection catalog = [] := by
  rw [selection, h.select]
  split <;> rfl

theorem inPlay_count : field ∈ count.fieldsInPlay catalog ↔ count.filtersBy field = true := by
  have hsort : count.sortField catalog = none := if_neg (by rw [h.count_mode]; nofun)
  rw [fieldsInPlay, h.selection_count, hsort, filtersBy, decide_eq_true_eq]
  simp

theorem inPlay_list : field ∈ list.fieldsInPlay catalog
    ↔ count.filtersBy field = true ∨ list.sortField catalog = some field := by
  rw [fieldsInPlay, h.selection_list, filtersBy, decide_eq_true_eq, h.filterFields_eq]
  simp

theorem derivedFields_filter : (list.derivedFields settings catalog now).filter
      (fun entry => count.filtersBy entry.1) = count.derivedFields settings catalog now := by
  have hpart : ∀ (name : String) (expr : Expr),
      (if name ∈ list.fieldsInPlay catalog then [(name, expr)] else []).filter
          (fun entry => count.filtersBy entry.1)
        = if name ∈ count.fieldsInPlay catalog then [(name, expr)] else [] := by
    intro name expr
    simp only [h.inPlay_count, h.inPlay_list]
    by_cases hfilter : count.filtersBy name = true
    · simp [hfilter]
    · split <;> simp [hfilter]
  rw [derivedFields, derivedFields, List.filter_append, hpart, hpart]

theorem metricColumns_filter : ((list.needs catalog).metricColumns.filter
      fun column => count.filtersBy column.name) = (count.needs catalog).metricColumns := by
  rw [← columnsInPlay_eq, ← columnsInPlay_eq, columnsInPlay, columnsInPlay, List.filter_filter]
  refine List.filter_congr fun column _ => ?_
  simp only [h.inPlay_count, h.inPlay_list]
  by_cases hfilter : count.filtersBy column.name = true <;> simp [hfilter]

theorem filterDeferred_eq : count.filterDeferred catalog = list.filterDeferred catalog := by
  rw [filterDeferred, filterDeferred, h.filterFields_eq]

end Counts

/-! ## Rows beside each other -/

/-- What a store, a count and a list have to be like for the two to agree: the runs can be followed,
the list has room for all of them, no metric column lies above or below another field that the list
refers to, and the sort column makes no difference to what the filter sees. -/
structure Comparable (count list : Request) (settings : Settings) (catalog : Catalog)
    (now : Instant) (store : Store) : Prop extends Counts count list where
  runs : ∀ run ∈ store.documents settings.runs, IsRun run
  ids : ((store.documents settings.runs).map fun run => (idOf run).text).Nodup
  apartFields : ∀ column ∈ (list.needs catalog).metricColumns, ∀ field ∈ list.fieldsInPlay catalog,
    field ≠ column.name → Path.Apart (Path.segments column.name) (Path.segments field)
  fits : (store.documents settings.runs).length ≤ list.pageSize settings
  word : Word.fitsUnsigned (list.pageSize settings) = true
  /-- No field of the filter lies below a duration that is derived for the sort alone. -/
  duration : list.sortField catalog = some Field.duration →
    count.filtersBy Field.duration = false → ∀ field ∈ count.filterFields.names,
      Path.isAncestor Field.duration field = false
  /-- A series that is looked up for the sort alone leaves the metric columns of the filter as they
  are, and the filter does not look at the table of series itself. -/
  series : count.filterDeferred catalog = true → list.series catalog ≠ count.series catalog →
    (∀ field ∈ count.filterFields.names, Path.covers tableField field = false)
      ∧ ∀ column ∈ (count.needs catalog).metricColumns, column.series ≠ unmatchedName
        ∧ ∀ run ∈ store.documents settings.runs,
          Labelled (store.documents settings.metrics) column.series run
  /-- A metric column that is joined for the sort alone meets no array on its way that a field of
  the filter leads through. -/
  arrays : count.filterDeferred catalog = true → ∀ column ∈ (list.needs catalog).metricColumns,
    count.filtersBy column.name = false → ∀ run ∈ store.documents settings.runs, ∀ row,
      count.rowAt settings catalog now (store.documents settings.metrics) true run = .ok row →
      ∀ field ∈ count.filterFields.names,
        Document.NoSharedArray (Path.segments column.name) (Path.segments field) row

/-- The base row of a count is made of the values that the filter of the list refers to. -/
theorem Counts.baseRow_count (h : Counts count list)
    (hcells : Expr.evalFields (list.derivedFields settings catalog now) run = .ok cells) :
    Expr.evalFields (count.derivedFields settings catalog now) run
        = .ok (count.filtered cells)
      ∧ count.baseRow settings catalog now run
        = .ok (Document.setAll (count.filtered cells) run) := by
  have hcount : Expr.evalFields (count.derivedFields settings catalog now) run
      = .ok (count.filtered cells) := by
    rw [← h.derivedFields_filter]
    exact evalFields_filter hcells count.filtersBy
  exact ⟨hcount, (baseRow_of_selects_all h.selection_count).mpr ⟨_, hcount, rfl⟩⟩

/-- Before the join a filter sees the same in both rows. -/
theorem Comparable.sameAt_derived (h : Comparable count list settings catalog now store)
    (hrun : run ∈ store.documents settings.runs)
    (hcells : Expr.evalFields (list.derivedFields settings catalog now) run = .ok cells)
    (hfield : field ∈ count.filterFields.names) :
    Document.SameAt (Path.segments field) (Document.setAll cells run)
      (Document.setAll (count.filtered cells) run) := by
  have hfilters : count.filtersBy field = true := decide_eq_true hfield
  refine sameAt_beside (h.runs run hrun) hcells (h.baseRow_count hcells).1 (fun hcovers => ?_)
    fun hstatus => ?_
  · rw [h.inPlay_count, h.inPlay_list, or_iff_left_iff_imp]
    intro hsort
    cases hduration : count.filtersBy Field.duration with
    | true => rfl
    | false =>
        have hbelow := h.duration hsort hduration field hfield
        rw [Path.covers, hbelow, Bool.or_false, beq_iff_eq] at hcovers
        rw [hcovers, hfilters] at hduration
        cases hduration
  · rw [h.inPlay_count, h.inPlay_list, ← hstatus]
    exact or_iff_left_of_imp fun _ => hfilters

/-! ## Joined rows beside each other -/

theorem fullRow_of_join (hjoin : (request.needs catalog).join = true) :
    request.fullRow catalog foreign base = .ok row
      ↔ ∃ cells, Expr.evalFields (columnFields (request.needs catalog).metricColumns)
          (withTable (request.series catalog) foreign base) = .ok cells
        ∧ row = Document.setAll cells (withTable (request.series catalog) foreign base) := by
  rw [fullRow, if_pos hjoin, joinRow, computeFields_eq_ok]
  rfl

theorem join_of_filterDeferred (h : request.filterDeferred catalog = true) :
    (request.needs catalog).join = true := by
  obtain ⟨field, hfield, hmetric⟩ := List.any_eq_true.mp h
  obtain ⟨column, hcolumn, hname⟩ := List.any_eq_true.mp hmetric
  rw [Needs.join, Bool.not_eq_true', List.isEmpty_eq_false_iff_exists_mem]
  refine ⟨column, mem_metricColumns.mpr ⟨hcolumn, ?_⟩⟩
  rw [eq_of_beq hname]
  exact inPlay_of_filter hfield

theorem Counts.join_count (h : Counts count list) (hfilter : count.filterDeferred catalog = false) :
    (count.needs catalog).join = false := by
  rw [Needs.join, Bool.not_eq_false', List.isEmpty_iff, List.eq_nil_iff_forall_not_mem]
  intro column hcolumn
  obtain ⟨hmem, hplay⟩ := mem_metricColumns.mp hcolumn
  rw [h.inPlay_count, filtersBy, decide_eq_true_eq] at hplay
  rw [filterDeferred, List.any_eq_false] at hfilter
  exact hfilter column.name hplay (List.any_eq_true.mpr ⟨column, hmem, beq_self_eq_true _⟩)

/-- Derived columns leave a run a run with the same references. -/
theorem refs_derived (hrun : IsRun run)
    (hcells : Expr.evalFields (request.derivedFields settings catalog now) run = .ok cells) :
    IsRun (Document.setAll cells run)
      ∧ Document.getOrNull Field.metricRefs (Document.setAll cells run)
        = Document.getOrNull Field.metricRefs run :=
  ⟨hrun.setAll (head?_derivedFields (names_evalFields hcells)),
    getOrNull_metricRefs_derived (names_evalFields hcells) hrun⟩

theorem isObject_setAll_withTable (cells : List (String × Json)) (names : List String)
    (foreign : List Json) (base : Json) :
    (Document.setAll cells (withTable names foreign base)).isObject = true := by
  obtain ⟨ms, hms⟩ : ∃ ms, Document.setAll cells (withTable names foreign base) = .obj ms :=
    Document.setAll_isObject ⟨_, rfl⟩ cells
  rw [hms]
  rfl

/-- Beside the table and the columns a row is the base row. -/
theorem sameAt_base {names : List String} {s : String} {rest : List String}
    (hrun : IsRun base) (hs : s ≠ tableField)
    (hcells : ∀ path ∈ Table.names cells, (Path.segments path).head? ≠ some s) :
    Document.SameAt (s :: rest) (Document.setAll cells (withTable names foreign base)) base := by
  have hlookup : (Document.setAll cells (withTable names foreign base)).members.lookup s
      = base.members.lookup s :=
    (Document.lookup_setAll_of_not_mem hcells).trans (Table.lookup_append_of_ne hs _ _)
  obtain ⟨ms, hms⟩ : ∃ ms, Document.setAll cells (withTable names foreign base) = .obj ms :=
    Document.setAll_isObject ⟨_, rfl⟩ cells
  rw [hms] at hlookup ⊢
  rw [hrun.eq_obj]
  exact Document.sameAt_of_lookup_eq hlookup

namespace Comparable

variable (h : Comparable count list settings catalog now store)
  (hdeferred : count.filterDeferred catalog = true) (hrun : run ∈ store.documents settings.runs)
  (hbase : Expr.evalFields (list.derivedFields settings catalog now) run = .ok cells)
  (hcells : Expr.evalFields (columnFields (list.needs catalog).metricColumns)
    (withTable (list.series catalog) (store.documents settings.metrics) (Document.setAll cells run))
      = .ok cells')

include h hdeferred hrun hbase hcells

theorem evalFields_count :
    Expr.evalFields (columnFields (count.needs catalog).metricColumns)
        (withTable (count.series catalog) (store.documents settings.metrics)
          (Document.setAll (count.filtered cells) run))
      = .ok (count.filtered cells') := by
  have hfiltered : Expr.evalFields (columnFields (count.needs catalog).metricColumns)
      (withTable (list.series catalog) (store.documents settings.metrics)
        (Document.setAll cells run)) = .ok (count.filtered cells') := by
    have hcolumns : columnFields (count.needs catalog).metricColumns
        = (columnFields (list.needs catalog).metricColumns).filter
          fun entry => count.filtersBy entry.1 := by
      rw [← h.metricColumns_filter, columnFields, columnFields, List.filter_map]
      rfl
    rw [hcolumns]
    exact evalFields_filter hcells count.filtersBy
  rw [← hfiltered]
  obtain ⟨hlistRun, hlistRefs⟩ := refs_derived (h.runs run hrun) hbase
  obtain ⟨hcountRun, hcountRefs⟩ := refs_derived (h.runs run hrun) (h.baseRow_count hbase).1
  refine evalFields_congr fun entry hentry => ?_
  obtain ⟨column, hcolumn, rfl⟩ := List.mem_map.mp hentry
  have hlist : column ∈ (list.needs catalog).metricColumns := by
    rw [← h.metricColumns_filter] at hcolumn
    exact (List.mem_filter.mp hcolumn).1
  refine (eval_columnExpr_withTable hcountRun (h.runs run hrun) hcountRefs (.inl rfl)).trans
    (eval_columnExpr_withTable hlistRun (h.runs run hrun) hlistRefs ?_).symm
  by_cases hseries : list.series catalog = count.series catalog
  · exact .inl hseries
  · obtain ⟨hname, hlabelled⟩ := (h.series hdeferred hseries).2 column hcolumn
    exact .inr ⟨hname, mem_seriesNames hlist, mem_seriesNames hcolumn, hlabelled run hrun⟩

omit hrun hbase hcells in
/-- The table of series is the same, or the filter does not look at it. -/
theorem sameAt_table (hfield : field ∈ count.filterFields.names) :
    Document.SameAt (Path.segments field)
      (assembled (list.series catalog) (store.documents settings.metrics) cells cells' run)
      (assembled (count.series catalog) (store.documents settings.metrics) cells cells' run) := by
  by_cases hseries : list.series catalog = count.series catalog
  · rw [hseries]
    exact .refl _ _
  have htable : ∀ names foreign, Document.Overlays [tableField]
      (withTable (list.series catalog) foreign (Document.setAll cells run))
      (withTable names foreign (Document.setAll cells run)) := fun names foreign =>
    .inr ⟨rfl, fun name hname => (Table.lookup_append_of_ne hname _ _).trans
      (Table.lookup_append_of_ne hname _ _).symm, trivial⟩
  exact ((htable _ _).setAll cells').sameAt_of_head?_ne (isObject_setAll_withTable _ _ _ _)
    (Path.segments_ne_nil field) (Path.head?_ne_of_not_covers segments_tableField
      ((h.series hdeferred hseries).1 field hfield))

omit hdeferred in
/-- With the same table, the row of the list has what is written for the sort on top. -/
theorem overlays_rows {sort : String} (hsort : list.sortField catalog = some sort) :
    Document.Overlays (Path.segments sort)
      (assembled (count.series catalog) (store.documents settings.metrics) cells cells' run)
      (assembled (count.series catalog) (store.documents settings.metrics) (count.filtered cells)
        (count.filtered cells') run) := by
  have hdropped : ∀ path, path ∈ list.fieldsInPlay catalog → count.filtersBy path = false →
      Path.segments path = Path.segments sort := by
    intro path hplay hfilters
    rw [h.inPlay_list, hfilters, hsort] at hplay
    rw [Option.some.inj (hplay.resolve_left Bool.false_ne_true)]
  obtain ⟨hlistRun, hlistRefs⟩ := refs_derived (h.runs run hrun) hbase
  obtain ⟨hcountRun, hcountRefs⟩ := refs_derived (h.runs run hrun) (h.baseRow_count hbase).1
  refine Document.Overlays.setAll_filter ?_ fun path hpath => hdropped path ?_
  · rw [withTable_eq_set hlistRun, withTable_eq_set hcountRun,
      table_congr (hlistRefs.trans hcountRefs.symm)]
    refine ((Document.Overlays.refl _ run).setAll_filter fun path hpath => ?_).setAt _ _
    rw [names_evalFields hbase] at hpath
    obtain ⟨entry, hentry, rfl⟩ := List.mem_map.mp hpath
    exact hdropped _ (name_mem_derivedFields hentry).2
  · rw [names_columnFields hcells] at hpath
    obtain ⟨column, hcolumn, rfl⟩ := List.mem_map.mp hpath
    exact (mem_metricColumns.mp hcolumn).2

/-- A metric column that is joined for the sort alone is apart from the fields of the filter. -/
theorem sameAt_of_metric {sort : String} (hsort : list.sortField catalog = some sort)
    (hfilters : count.filtersBy sort = false) (hmetric : catalog.isMetric sort = true)
    (hfield : field ∈ count.filterFields.names) :
    Document.SameAt (Path.segments field)
      (assembled (count.series catalog) (store.documents settings.metrics) cells cells' run)
      (assembled (count.series catalog) (store.documents settings.metrics) (count.filtered cells)
        (count.filtered cells') run) := by
  obtain ⟨column, hcolumn, hname⟩ := List.any_eq_true.mp hmetric
  obtain rfl : column.name = sort := eq_of_beq hname
  have hlist : column ∈ (list.needs catalog).metricColumns :=
    mem_metricColumns.mpr ⟨hcolumn, inPlay_of_sort hsort⟩
  have hkept : count.filtersBy field = true := decide_eq_true hfield
  have hplay : field ∈ list.fieldsInPlay catalog := h.inPlay_list.mpr (.inl hkept)
  have hne : field ≠ column.name := by
    rintro rfl
    rw [hkept] at hfilters
    cases hfilters
  refine (h.overlays_rows hrun hbase hcells hsort).sameAt
    (h.apartFields column hlist field hplay hne)
    (h.arrays hdeferred column hlist hfilters run hrun _ ?_ field hfield)
  refine rowAt_eq_ok.mpr ⟨_, (h.baseRow_count hbase).2, ?_⟩
  rw [if_pos rfl, fullRow_of_join (join_of_filterDeferred hdeferred)]
  exact ⟨_, h.evalFields_count hdeferred hrun hbase hcells, rfl⟩

omit hdeferred in
/-- A column that is derived for the sort alone is apart from the fields of the filter, or makes no
difference to them. -/
theorem sameAt_of_derived {sort : String} (hsort : list.sortField catalog = some sort)
    (hderived : sort = Field.duration ∨ sort = Field.status)
    (hmetric : catalog.isMetric sort = false) (hfield : field ∈ count.filterFields.names) :
    Document.SameAt (Path.segments field)
      (assembled (count.series catalog) (store.documents settings.metrics) cells cells' run)
      (assembled (count.series catalog) (store.documents settings.metrics) (count.filtered cells)
        (count.filtered cells') run) := by
  obtain ⟨hsegs, htable⟩ : Path.segments sort = [sort] ∧ sort ≠ tableField := by
    rcases hderived with rfl | rfl <;> decide
  have hover := h.overlays_rows hrun hbase hcells hsort
  rw [hsegs] at hover
  by_cases hhead : (Path.segments field).head? = some sort
  · obtain ⟨rest, hfieldSegs⟩ : ∃ rest, Path.segments field = sort :: rest := by
      obtain ⟨s, rest, hs⟩ := List.exists_cons_of_ne_nil (Path.segments_ne_nil field)
      rw [hs] at hhead
      exact ⟨rest, by rw [hs, Option.some.inj hhead]⟩
    have hsame := h.sameAt_derived hrun hbase hfield
    rw [hfieldSegs] at hsame ⊢
    have hcolumns : ∀ path ∈ Table.names cells', (Path.segments path).head? ≠ some sort := by
      intro path hpath hhead
      rw [names_columnFields hcells] at hpath
      obtain ⟨column, hcolumn, rfl⟩ := List.mem_map.mp hpath
      have hne : sort ≠ column.name := by
        rintro rfl
        rw [Catalog.isMetric, List.any_eq_false] at hmetric
        exact hmetric column (mem_metricColumns.mp hcolumn).1 (beq_self_eq_true _)
      exact (h.apartFields column hcolumn sort (inPlay_of_sort hsort) hne).2
        (hsegs ▸ Path.prefix_of_head? hhead)
    have hkept : ∀ path ∈ Table.names (count.filtered cells'),
        (Path.segments path).head? ≠ some sort := fun path hpath =>
      hcolumns path ((List.filter_sublist.map _).subset hpath)
    exact (sameAt_base (refs_derived (h.runs run hrun) hbase).1 htable hcolumns).trans
      (hsame.trans (sameAt_base (refs_derived (h.runs run hrun) (h.baseRow_count hbase).1).1 htable
        hkept).symm)
  · exact hover.sameAt_of_head?_ne (isObject_setAll_withTable _ _ _ _) (Path.segments_ne_nil field)
      hhead

omit hdeferred hrun in
theorem rows_eq (hsort : ∀ sort, list.sortField catalog = some sort →
      count.filtersBy sort = true ∨ sort ≠ Field.duration ∧ sort ≠ Field.status
        ∧ catalog.isMetric sort = false) :
    count.filtered cells = cells
      ∧ count.filtered cells' = cells' := by
  refine ⟨List.filter_eq_self.mpr fun cell hcell => ?_,
    List.filter_eq_self.mpr fun cell hcell => ?_⟩
  · have hname : cell.1 ∈ Table.names cells := List.mem_map_of_mem hcell
    rw [names_evalFields hbase] at hname
    obtain ⟨entry, hentry, hname⟩ := List.mem_map.mp hname
    obtain ⟨hcases, hplay⟩ := name_mem_derivedFields hentry
    rw [hname] at hcases hplay
    rcases h.inPlay_list.mp hplay with hfilters | hplaySort
    · exact hfilters
    · rcases hsort _ hplaySort with hfilters | ⟨hduration, hstatus, -⟩
      · exact hfilters
      · exact absurd hcases (not_or.mpr ⟨hduration, hstatus⟩)
  · have hname : cell.1 ∈ Table.names cells' := List.mem_map_of_mem hcell
    rw [names_columnFields hcells] at hname
    obtain ⟨column, hcolumn, hname⟩ := List.mem_map.mp hname
    obtain ⟨hmem, hplay⟩ := mem_metricColumns.mp hcolumn
    rw [hname] at hplay
    rcases h.inPlay_list.mp hplay with hfilters | hplaySort
    · exact hfilters
    · rcases hsort _ hplaySort with hfilters | ⟨-, -, hmetric⟩
      · exact hfilters
      · rw [Catalog.isMetric, List.any_eq_false] at hmetric
        exact absurd (beq_iff_eq.mpr hname) (hmetric column hmem)

theorem sameAt_rows (hfield : field ∈ count.filterFields.names) :
    Document.SameAt (Path.segments field)
      (assembled (list.series catalog) (store.documents settings.metrics) cells cells' run)
      (assembled (count.series catalog) (store.documents settings.metrics) (count.filtered cells)
        (count.filtered cells') run) := by
  refine (h.sameAt_table hdeferred hfield).trans ?_
  by_cases hnone : ∀ sort, list.sortField catalog = some sort → count.filtersBy sort = true
      ∨ sort ≠ Field.duration ∧ sort ≠ Field.status ∧ catalog.isMetric sort = false
  · obtain ⟨hderived, hcolumns⟩ := h.rows_eq hbase hcells hnone
    rw [hderived, hcolumns]
    exact .refl _ _
  · push Not at hnone
    obtain ⟨sort, hsort, hfilters, hcases⟩ := hnone
    cases hmetric : catalog.isMetric sort with
    | true =>
        exact h.sameAt_of_metric hdeferred hrun hbase hcells hsort (by simpa using hfilters) hmetric
          hfield
    | false =>
        refine h.sameAt_of_derived hrun hbase hcells hsort ?_ hmetric hfield
        by_contra hother
        obtain ⟨hduration, hstatus⟩ := not_or.mp hother
        exact hcases hduration hstatus hmetric

end Comparable

/-! ## The runs that are counted -/

/-- The count has a row for each run that the list decides on, and decides alike. -/
theorem Comparable.exists_row (h : Comparable count list settings catalog now store)
    (hrun : run ∈ store.documents settings.runs)
    (hrow : list.rowAt settings catalog now (store.documents settings.metrics)
      (list.filterDeferred catalog) run = .ok row) :
    ∃ row', count.rowAt settings catalog now (store.documents settings.metrics)
        (count.filterDeferred catalog) run = .ok row'
      ∧ verdict count.filter row' = verdict list.filter row := by
  obtain ⟨base, hbase, hrow⟩ := rowAt_eq_ok.mp hrow
  obtain ⟨cells, hcells, rfl⟩ := (baseRow_of_selects_all h.selection_list).mp hbase
  have hcount := (h.baseRow_count hcells).2
  rw [← h.filterDeferred_eq] at hrow
  rw [← h.filter]
  cases hdeferred : count.filterDeferred catalog with
  | false =>
      rw [hdeferred] at hrow
      cases hrow
      refine ⟨_, rowAt_eq_ok.mpr ⟨_, hcount, rfl⟩, verdict_congr fun field hfield => ?_⟩
      exact (h.sameAt_derived hrun hcells hfield).symm
  | true =>
      have hjoin := join_of_filterDeferred (h.filterDeferred_eq ▸ hdeferred)
      rw [hdeferred, if_pos rfl, fullRow_of_join hjoin] at hrow
      obtain ⟨cells', hcells', rfl⟩ := hrow
      refine ⟨assembled (count.series catalog) (store.documents settings.metrics)
        (count.filtered cells) (count.filtered cells') run, rowAt_eq_ok.mpr ⟨_, hcount, ?_⟩,
        verdict_congr fun field hfield => ?_⟩
      · rw [if_pos rfl, fullRow_of_join (join_of_filterDeferred hdeferred)]
        exact ⟨_, h.evalFields_count hdeferred hrun hcells hcells', rfl⟩
      · exact (h.sameAt_rows hdeferred hrun hcells hcells' hfield).symm

/-- A count succeeds if its filter decides on a row of each run, and tells how many are kept. -/
theorem JoinsBy.execute_count (h : request.JoinsBy settings catalog now store
      (request.fullRow catalog (store.documents settings.metrics)))
    (hmode : request.mode = .count)
    (hjoin : request.filterDeferred catalog = false → (request.needs catalog).join = false)
    {v : Json → Json} {keeps : Json → Bool}
    (hv : ∀ run ∈ store.documents settings.runs,
      request.rowAt settings catalog now (store.documents settings.metrics)
        (request.filterDeferred catalog) run = .ok (v run))
    (hkeeps : ∀ run ∈ store.documents settings.runs,
      verdict request.filter (v run) = .ok (keeps run)) :
    (request.compile settings catalog now).execute store = .ok (.count
      ((Json.nat ((store.documents settings.runs).filter keeps).length).nat64?.getD 0)) := by
  have hunpaged : request.mode ≠ .list := by
    rw [hmode]
    nofun
  choose! b hb hr using fun run hrun => rowAt_eq_ok.mp (hv run hrun)
  have hjoined : ∀ run ∈ store.documents settings.runs,
      request.fullRow catalog (store.documents settings.metrics) (b run) = .ok (v run) := by
    intro run hrun
    have hrow := hr run hrun
    split at hrow
    · exact hrow
    · next hfilter =>
        rw [fullRow, hjoin (Bool.eq_false_of_not_eq_true hfilter), if_neg Bool.false_ne_true]
        exact hrow
  have hdecided : ∀ run ∈ store.documents settings.runs, verdict request.filter
      ((if request.filterDeferred catalog then v else b) run) = .ok (keeps run) := by
    intro run hrun
    have hrow := hr run hrun
    split at hrow
    · next hfilter => rw [if_pos hfilter]; exact hkeeps run hrun
    · next hfilter => rw [if_neg hfilter, Except.ok.inj hrow]; exact hkeeps run hrun
  have hpicks : ∀ run ∈ store.documents settings.runs,
      verdict request.chosenFilter run = .ok ((fun _ => true) run) := by
    intro run _
    rw [chosenFilter, hmode]
    rfl
  have hmem : ∀ run ∈ (store.documents settings.runs).filter fun _ => true,
      run ∈ store.documents settings.runs := fun run hrun => (List.mem_filter.mp hrun).1
  have hleaves := leaves_of_verdicts hpicks (fun run hrun => hb run (hmem run hrun))
    (fun run hrun => hjoined run (hmem run (List.mem_filter.mp hrun).1))
    (fun run hrun => hdecided run (hmem run hrun)) fun _ run hrun => hjoined run (hmem run hrun)
  rw [List.filter_true] at hleaves
  exact (h.execute_unpaged hunpaged).mpr ⟨_, v, hleaves, by rw [reply, hmode, List.length_map]⟩

/-! ## Whole answers -/

theorem compile_count {other : Request} (hmode : count.mode = .count) (hother : other.mode = .count)
    (hfilter : other.filter = count.filter) :
    other.compile settings catalog now = count.compile settings catalog now := by
  have hselection : ∀ {request : Request}, request.mode = .count →
      request.selection catalog = [] := fun hmode => if_pos hmode
  have hsort : ∀ {request : Request}, request.mode = .count → request.sortField catalog = none :=
    fun hmode => if_neg (by rw [hmode]; nofun)
  have hunpaged : ∀ {request : Request}, request.mode = .count → request.mode ≠ .list := by
    intro request hmode
    rw [hmode]
    nofun
  have hfields : other.filterFields = count.filterFields := by
    rw [filterFields, filterFields, hfilter]
  have hneeds : other.needs catalog = count.needs catalog := by
    rw [needs, needs, hselection hmode, hselection hother, hsort hmode, hsort hother, hfields]
  have hstages : (other.compile settings catalog now).stages
      = (count.compile settings catalog now).stages := by
    rw [stages_compile_unpaged (hunpaged hmode), stages_compile_unpaged (hunpaged hother),
      chosenFilter, chosenFilter, earlyFilter, earlyFilter, lateFilter, lateFilter, filterDeferred,
      filterDeferred, hneeds, hmode, hother, hfilter, hfields]
  have hcompile : ∀ request : Request, request.compile settings catalog now
      = ⟨request.mode, settings.runs, (request.compile settings catalog now).stages,
        settings.allowDiskUse⟩ := fun _ => rfl
  rw [hcompile other, hcompile count, hstages, hmode, hother]

theorem nat64?_nat {n : Nat} (h : Word.fitsUnsigned n = true) : (Json.nat n).nat64? = some n := by
  rw [Json.nat, Json.int, Json.nat64?, if_pos h, Int.toNat_natCast]

theorem Comparable.execute_count (h : Comparable count list settings catalog now store)
    (hrows : (list.compile settings catalog now).execute store = .ok (.page rows)) :
    (count.compile settings catalog now).execute store = .ok (.count rows.length) := by
  have hlist : list.JoinsBy settings catalog now store _ :=
    joinsBy_of_selects_all h.selection_list h.runs h.ids
  have hcount : count.JoinsBy settings catalog now store _ :=
    joinsBy_of_selects_all h.selection_count h.runs h.ids
  obtain ⟨v, keeps, hv, hkeeps, hlength⟩ := hlist.length_of_page h.list_mode h.skip h.fits hrows
  have hexists : ∀ run ∈ store.documents settings.runs, ∃ row,
      count.rowAt settings catalog now (store.documents settings.metrics)
          (count.filterDeferred catalog) run = .ok row
        ∧ verdict count.filter row = .ok (keeps run) := by
    intro run hrun
    obtain ⟨row, hrow, hverdict⟩ := h.exists_row hrun (hv run hrun)
    exact ⟨row, hrow, hverdict.trans (hkeeps run hrun)⟩
  choose! w hw hverdicts using hexists
  have hfits : Word.fitsUnsigned rows.length = true := by
    have hword := h.word
    have hle : rows.length ≤ list.pageSize settings := by
      rw [hlength]
      exact (List.length_filter_le _ _).trans h.fits
    rw [Word.fitsUnsigned, decide_eq_true_eq] at hword ⊢
    omega
  rw [hcount.execute_count h.count_mode h.join_count hw hverdicts, ← hlength, nat64?_nat hfits]
  rfl

/-- Counting agrees with listing. All counts by one filter have the same pipeline, and if a list
with room for all runs succeeds, the count succeeds and tells how many rows the list has. -/
theorem count_agrees_with_list (hmode : count.mode = .count) :
    (∀ other : Request, other.mode = .count → other.filter = count.filter →
      other.compile settings catalog now = count.compile settings catalog now)
    ∧ ∀ list store rows, Comparable count list settings catalog now store →
      (list.compile settings catalog now).execute store = .ok (.page rows) →
      (count.compile settings catalog now).execute store = .ok (.count rows.length) :=
  ⟨fun _ hother hfilter => compile_count hmode hother hfilter,
    fun _ _ _ h hrows => h.execute_count hrows⟩

/-- One of two runs, counted by a metric column and a setting, and listed by another column. -/
theorem count_agrees_with_list_of_two :
    let run := fun id rate : Int => Json.obj [("_id", .int id),
      ("config", .single "rate" (.int rate)),
      ("info", .single "metrics" (.arr [.obj [("name", .str "loss"), ("id", .int 7)],
        .obj [("name", .str "pace"), ("id", .int 8)]]))]
    let loss := Json.obj [("_id", .int 7), ("name", .str "loss"), ("values", .arr [.int 4])]
    let pace := Json.obj [("_id", .int 8), ("name", .str "pace"), ("values", .arr [.int 2])]
    let store : Store := {
      collections := [("runs", [run 1 10, run 2 20]), ("metrics", [loss, pace])] }
    let catalog : Catalog := {
      metricColumns := [⟨"best", "loss", .least, none⟩, ⟨"speed", "pace", .last, none⟩] }
    let filter := Json.obj [("best", .single "$lt" (.int 5)), ("config.rate", .int 20)]
    let list : Request := { filter := some filter, sortBy := some "speed" }
    let count : Request := {
      mode := .count, filter := some filter, select := ["status"], skip := 3 }
    ∃ row, (list.compile {} catalog ⟨0, 0⟩).execute store = .ok (.page [row])
      ∧ (count.compile {} catalog ⟨0, 0⟩).execute store = .ok (.count 1) := by
  intro run loss pace store catalog filter list count
  have hruns : ∀ run ∈ store.documents "runs", IsRun run := by decide
  have hids : ((store.documents "runs").map fun run => (idOf run).text).Nodup := by decide
  have hcounts : Counts count list := ⟨rfl, rfl, rfl, rfl, rfl⟩
  have harrays : ∀ column ∈ (list.needs catalog).metricColumns,
      count.filtersBy column.name = false → ∀ run ∈ store.documents "runs", ∀ row,
        count.rowAt {} catalog ⟨0, 0⟩ [loss, pace] true run = .ok row →
        ∀ field ∈ count.filterFields.names,
          Document.NoSharedArray (Path.segments column.name) (Path.segments field) row := by
    intro column hcolumn hfilters run _ row hrow field hfield
    obtain ⟨base, -, hfull⟩ := rowAt_eq_ok.mp hrow
    have hjoin : (count.needs catalog).join = true := by decide
    rw [if_pos rfl, fullRow_of_join hjoin] at hfull
    obtain ⟨cells, -, rfl⟩ := hfull
    have hheads : ∀ column ∈ (list.needs catalog).metricColumns,
        count.filtersBy column.name = false → ∀ field ∈ count.filterFields.names,
          (Path.segments column.name).head? ≠ (Path.segments field).head? := by decide
    exact Document.noSharedArray_of_head?_ne (isObject_setAll_withTable _ _ _ _)
      (hheads column hcolumn hfilters field hfield)
  have hcomparable : Comparable count list {} catalog ⟨0, 0⟩ store :=
    ⟨hcounts, hruns, hids, by decide, by decide, by decide,
      fun hsort => absurd hsort (by decide), fun _ _ => ⟨by decide, by decide⟩, fun _ => harrays⟩
  have hjoins : list.JoinsBy {} catalog ⟨0, 0⟩ store _ := joinsBy_of_selects_all rfl hruns hids
  let full := fun doc : Json => Json.obj (doc.members
    ++ [("__metrics", .obj [("loss", loss), ("pace", pace)]), ("best", .int 4), ("speed", .int 2)])
  have hbase : ∀ doc ∈ [run 1 10, run 2 20], list.baseRow {} catalog ⟨0, 0⟩ doc = .ok doc := by
    subst list filter catalog
    exact fun doc _ => rfl
  have hfull : ∀ doc ∈ [run 1 10, run 2 20], list.fullRow catalog [loss, pace] doc
      = .ok (full doc) := by
    subst catalog list filter full loss pace run
    exact List.forall_mem_cons.mpr ⟨rfl, List.forall_mem_singleton.mpr rfl⟩
  have hkeeps : ∀ doc ∈ [run 1 10, run 2 20], verdict list.filter (full doc)
      = .ok ((idOf doc).equal (.int 2)) := by
    subst list filter full loss pace run
    exact List.forall_mem_cons.mpr ⟨rfl, List.forall_mem_singleton.mpr rfl⟩
  have hpage : (list.compile {} catalog ⟨0, 0⟩).execute store
      = .ok (.page [list.stripRow catalog (full (run 2 20))]) := by
    refine (hjoins.execute_deferred rfl (by decide)).mpr
      ⟨fun doc => doc, hbase, full, hfull, fun doc => (idOf doc).equal (.int 2), hkeeps, ?_⟩
    have hlimit : 0 < list.pageSize {} := by decide
    rw [found, show (store.documents "runs").filter (fun doc => (idOf doc).equal (.int 2))
      = [run 2 20] from rfl, Paging.page_single rfl hlimit]
    rfl
  exact ⟨_, hpage, (count_agrees_with_list rfl).2 list store _ hcomparable hpage⟩

/-! ## Other numbers -/

/-- A count and a list with room for all runs that both succeed and do not agree, though the runs
can be followed and no names clash. -/
structure Disagrees (count list : Request) (catalog : Catalog) (store : Store) : Prop
    extends Counts count list where
  runs : ∀ run ∈ store.documents "runs", IsRun run
  ids : ((store.documents "runs").map fun run => (idOf run).text).Nodup
  apartFields : ∀ column ∈ (list.needs catalog).metricColumns, ∀ field ∈ list.fieldsInPlay catalog,
    field ≠ column.name → Path.Apart (Path.segments column.name) (Path.segments field)
  fits : (store.documents "runs").length ≤ list.pageSize {}
  differ : ∃ rows n, (list.compile {} catalog ⟨0, 0⟩).execute store = .ok (.page rows)
    ∧ (count.compile {} catalog ⟨0, 0⟩).execute store = .ok (.count n) ∧ n ≠ rows.length

/-- If there is one run, a list shows it if its filter lets a row of it pass. -/
theorem JoinsBy.length_of_single (h : list.JoinsBy settings catalog now store
      (list.fullRow catalog (store.documents settings.metrics)))
    (hmode : list.mode = .list) (hskip : list.skip = 0) (hlimit : 0 < list.pageSize settings)
    (hstore : store.documents settings.runs = [run]) {full : Json} {keep : Bool}
    (hfull : list.rowAt settings catalog now (store.documents settings.metrics) true run
      = .ok full)
    (hrow : list.rowAt settings catalog now (store.documents settings.metrics)
      (list.filterDeferred catalog) run = .ok row)
    (hkeep : verdict list.filter row = .ok keep) :
    ∃ rows, (list.compile settings catalog now).execute store = .ok (.page rows)
      ∧ rows.length = if keep then 1 else 0 := by
  obtain ⟨rows, hrows⟩ := h.exists_page hmode (forall_mem_of_eq_singleton hstore ⟨full, hfull⟩)
    (forall_mem_of_eq_singleton hstore ⟨row, keep, hrow, hkeep⟩)
  obtain ⟨v, keeps, hv, hkeeps, hlength⟩ :=
    h.length_of_page hmode hskip (by rwa [hstore]) hrows
  have hmem : run ∈ store.documents settings.runs := hstore ▸ List.mem_singleton_self run
  have hkept : keeps run = keep := by
    have hsame := hkeeps run hmem
    rw [Except.ok.inj ((hv run hmem).symm.trans hrow), hkeep] at hsame
    exact (Except.ok.inj hsame).symm
  refine ⟨rows, hrows, ?_⟩
  rw [hlength, hstore, List.filter_singleton, hkept]
  cases keep <;> rfl

/-- If there is one run, it is counted if the filter lets a row of it pass. -/
theorem JoinsBy.count_of_single (h : count.JoinsBy settings catalog now store
      (count.fullRow catalog (store.documents settings.metrics)))
    (hmode : count.mode = .count)
    (hjoin : count.filterDeferred catalog = false → (count.needs catalog).join = false)
    (hstore : store.documents settings.runs = [run]) {keep : Bool}
    (hrow : count.rowAt settings catalog now (store.documents settings.metrics)
      (count.filterDeferred catalog) run = .ok row)
    (hkeep : verdict count.filter row = .ok keep) :
    (count.compile settings catalog now).execute store
      = .ok (.count (if keep then 1 else 0)) := by
  have hkeeps : ∀ run ∈ store.documents settings.runs,
      verdict count.filter ((fun _ => row) run) = .ok ((fun _ => keep) run) :=
    forall_mem_of_eq_singleton hstore hkeep
  rw [h.execute_count hmode hjoin (forall_mem_of_eq_singleton hstore hrow) hkeeps, hstore,
    List.filter_singleton]
  cases keep <;> rfl

/-- They disagree on the only run of a store if their filters do. -/
theorem Disagrees.of_verdicts (keep : Bool) (h : Counts count list)
    (hstore : store.documents "runs" = [run]) (hrun : IsRun run)
    (hapart : ∀ column ∈ (list.needs catalog).metricColumns, ∀ field ∈ list.fieldsInPlay catalog,
      field ≠ column.name → Path.Apart (Path.segments column.name) (Path.segments field))
    (hlimit : 0 < list.pageSize {})
    (hrow : (list.rowAt {} catalog ⟨0, 0⟩ (store.documents "metrics") true run).toOption.isSome)
    (hlisted : (list.rowAt {} catalog ⟨0, 0⟩ (store.documents "metrics")
      (list.filterDeferred catalog) run >>= verdict list.filter).toOption = some keep)
    (hcounted : (count.rowAt {} catalog ⟨0, 0⟩ (store.documents "metrics")
      (count.filterDeferred catalog) run >>= verdict count.filter).toOption = some (!keep)) :
    Disagrees count list catalog store := by
  have hruns : ∀ run ∈ store.documents "runs", IsRun run := forall_mem_of_eq_singleton hstore hrun
  have hids : ((store.documents "runs").map fun run => (idOf run).text).Nodup := by
    rw [hstore]
    exact List.nodup_singleton _
  have hlistJoins : list.JoinsBy {} catalog ⟨0, 0⟩ store _ :=
    joinsBy_of_selects_all h.selection_list hruns hids
  have hcountJoins : count.JoinsBy {} catalog ⟨0, 0⟩ store _ :=
    joinsBy_of_selects_all h.selection_count hruns hids
  obtain ⟨full, hfull⟩ := isSome_toOption_iff.mp hrow
  obtain ⟨row, hlistRow, hlistKeep⟩ := bind_eq_ok.mp (toOption_eq_some.mp hlisted)
  obtain ⟨row', hcountRow, hcountKeep⟩ := bind_eq_ok.mp (toOption_eq_some.mp hcounted)
  obtain ⟨rows, hrows, hlength⟩ := hlistJoins.length_of_single h.list_mode h.skip hlimit hstore
    hfull hlistRow hlistKeep
  refine ⟨h, hruns, hids, hapart, by rwa [hstore], rows, _, hrows,
    hcountJoins.count_of_single h.count_mode h.join_count hstore hcountRow hcountKeep, ?_⟩
  rw [hlength]
  cases keep <;> decide

/-- A list may have another number of rows than a count tells: if it derives the duration that its
filter looks below, if it looks a series up under another name or replaces one that has the name of
nothing found, if its filter looks at the table of series, and if it writes a column over an array
that its filter looks into. -/
theorem count_disagrees :
    let best : MetricColumn := ⟨"best", "loss", .least, none⟩
    let speed : MetricColumn := ⟨"speed", "rate", .last, none⟩
    let disagree := fun (columns : List MetricColumn) (filter : Json) (sortBy : String)
        (run : Json) (series : List Json) =>
      Disagrees { mode := .count, filter := some filter }
        { filter := some filter, sortBy := some sortBy } { metricColumns := columns }
        { collections := [("runs", [run]), ("metrics", series)] }
    let referring := fun refs : List Json =>
      Json.obj [("_id", .int 1), ("info", .single "metrics" (.arr refs))]
    let named := fun (name : String) (id : Int) => Json.obj [("name", .str name), ("id", .int id)]
    let series := fun name : String =>
      Json.obj [("_id", .int 7), ("name", .str name), ("values", .arr [.int 0])]
    disagree [] (.single "duration.hours" (.int 1)) "duration"
        (.obj [("_id", .int 1), ("duration", .single "hours" (.int 1))]) []
      ∧ disagree [best, speed] (.single "best" (.single "$lt" (.int 1))) "speed"
        (referring [named "rate" 7]) [series "loss"]
      ∧ disagree [⟨"best", "__unmatched", .least, none⟩, speed]
        (.single "best" (.single "$lt" (.int 1))) "speed"
        (referring [named "__unmatched" 7, named "rate" 99]) [series "__unmatched"]
      ∧ disagree [best, speed] (.obj [("best", .single "$exists" (.bool true)),
          ("__metrics.rate", .single "$exists" (.bool true))]) "speed"
        (referring [named "rate" 7]) [series "rate"]
      ∧ disagree [best, ⟨"a.b", "loss", .least, none⟩]
        (.obj [("best", .single "$exists" (.bool true)), ("a.0", .int 1)]) "a.b"
        (.obj [("_id", .int 1), ("a", .arr [.int 1])]) [] := by
  intro best speed disagree referring named series
  have hcounts : ∀ (filter : Json) (sortBy : String), Counts
      { mode := .count, filter := some filter } { filter := some filter, sortBy := some sortBy } :=
    fun _ _ => ⟨rfl, rfl, rfl, rfl, rfl⟩
  refine ⟨?_, ?_, ?_, ?_, ?_⟩
  · exact .of_verdicts false (hcounts _ _) rfl (by decide) (by decide) (by decide) (by decide)
      (by decide) (by decide)
  · exact .of_verdicts true (hcounts _ _) rfl (by decide) (by decide) (by decide) (by decide)
      (by decide) (by decide)
  · exact .of_verdicts false (hcounts _ _) rfl (by decide) (by decide) (by decide) (by decide)
      (by decide) (by decide)
  · exact .of_verdicts true (hcounts _ _) rfl (by decide) (by decide) (by decide) (by decide)
      (by decide) (by decide)
  · exact .of_verdicts false (hcounts _ _) rfl (by decide) (by decide) (by decide) (by decide)
      (by decide) (by decide)

end Request

end RunTable
