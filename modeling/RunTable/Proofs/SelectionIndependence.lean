import RunTable.Proofs.ListPipeline

/-!
# What is shown and what is found

A selection says what to show of the runs that are found, and it should not have a say in which runs
those are. Yet it reaches into the search: it decides which fields are read before the filter looks,
which derived columns are computed, and which series are looked up.

So the statement has conditions, one for each of these ways. The filter must see the runs through
what is read of them. A field below the derived duration must not be asked for by one request as
stored and by the other as derived. And where the filter or the sort looks at a metric column, the
references of the runs must bear the names of the series that they refer to, since a reference under
another name is followed only if a column beside wants that name. A request whose selection breaks
one of the conditions may find other runs.

The proof compares two requests run by run: the rows on which their filters decide are the same at
the fields of the filter, and the rows by which their pages are cut are read alike at the sort keys.
-/

namespace RunTable

open Outcome MetricJoin

namespace Request

/-- A request with another selection. -/
def selecting (request : Request) (selection : List String) : Request :=
  { request with select := selection }

/-- Whether a request filters or sorts by a field. -/
def Decides (request : Request) (catalog : Catalog) (field : String) : Prop :=
  field ∈ request.filterFields.names ∨ request.sortField catalog = some field

def series (request : Request) (catalog : Catalog) : List String :=
  (seriesNames (request.needs catalog).metricColumns).names

variable {request other : Request} {settings : Settings} {catalog : Catalog} {now : Instant}
  {store : Store} {foreign rows : List Json} {run row row' base base' : Json} {field : String}
  {column : MetricColumn} {cells cells' : List (String × Json)}

/-! ## Derived columns beside each other -/

/-- A derived status is the stored one or stands for a stored text. -/
theorem status_of_eval {value : Json} {deadAfterMillis : Int}
    (h : (Derived.statusExpr now deadAfterMillis).eval run = .ok value) :
    value = Document.getOrNull Field.status run
      ∨ ∃ text stored, value = .str text ∧ Document.getOrNull Field.status run = .str stored := by
  rw [Derived.statusExpr, Expr.eval] at h
  obtain ⟨test, htest, h⟩ := bind_eq_ok.mp h
  split at h
  · next htruthy =>
      right
      rw [Expr.eval] at htest
      obtain ⟨b, hb, hret⟩ := bind_eq_ok.mp htest
      cases hret
      rw [Expr.evalAll] at hb
      obtain ⟨isRunning, hrunning, hrest⟩ := bind_eq_ok.mp hb
      cases hrunning
      split at hrest
      · next hequal =>
          cases hstored : Document.getOrNull Field.status run with
          | str stored => exact ⟨_, stored, (Except.ok.inj h).symm, rfl⟩
          | _ =>
              rw [hstored] at hequal
              cases hequal
      · cases hrest
        cases htruthy
  · exact .inl (Except.ok.inj h).symm

/-- Strictly below the status, a derived status leaves what was stored. -/
theorem sameAt_below_status {t : String} {rest : List String} (hrun : IsRun run)
    (hcells : Expr.evalFields (request.derivedFields settings catalog now) run = .ok cells) :
    Document.SameAt (Field.status :: t :: rest) (Document.setAll cells run) run := by
  have hstatus : Path.segments Field.status = [Field.status] := by decide
  have hobj : run = .obj run.members := hrun.eq_obj
  obtain ⟨ms, hms⟩ := Document.setAll_isObject ⟨_, hobj⟩ cells
  by_cases hplay : Field.status ∈ request.fieldsInPlay catalog
  -- a derived text has nothing below it, and neither has the stored text that it stands for
  · obtain ⟨value, hvalue, hread⟩ :=
      get?_derived hcells hrun (mem_derivedFields.mpr ⟨.inr rfl, hplay⟩)
    rw [hms, Document.get?_name_obj hstatus] at hread
    have hstored : Document.getOrNull Field.status run
        = (run.members.lookup Field.status).getD .null := by
      rw [Document.getOrNull, hobj, Document.get?_name_obj hstatus]
      rfl
    have hbelow : Document.getAt? (t :: rest) value
          = (run.members.lookup Field.status).bind (Document.getAt? (t :: rest))
        ∧ Document.candidatesAt (t :: rest) value = (run.members.lookup Field.status).toList.flatMap
          (Document.candidatesAt (t :: rest)) := by
      rcases status_of_eval hvalue with rfl | ⟨text, stored, rfl, htext⟩
      · rw [hstored]
        cases run.members.lookup Field.status with
        | none => exact ⟨rfl, rfl⟩
        | some status => exact ⟨rfl, (List.flatMap_singleton _ _).symm⟩
      · rw [hstored] at htext
        cases hlookup : run.members.lookup Field.status with
        | none =>
            rw [hlookup] at htext
            cases htext
        | some status =>
            rw [hlookup] at htext
            cases htext
            exact ⟨rfl, rfl⟩
    rw [hms, hobj]
    refine ⟨?_, ?_⟩
    · rw [Document.getAt?_obj, Document.getAt?_obj, hread]
      exact hbelow.1
    · rw [Document.candidatesAt_obj, Document.candidatesAt_obj, hread, Option.toList_some,
        List.flatMap_singleton]
      exact hbelow.2
  · have hlookup : (Document.setAll cells run).members.lookup Field.status
        = run.members.lookup Field.status :=
      lookup_setAll_derived (names_evalFields hcells) fun _ => hplay
    rw [hms] at hlookup
    rw [hms, hobj]
    exact Document.sameAt_of_lookup_eq hlookup

/-- Two requests derive the same member if both or neither of them derive it. -/
theorem lookup_derived_eq {name : String} (hrun : IsRun run)
    (hcells : Expr.evalFields (request.derivedFields settings catalog now) run = .ok cells)
    (hcells' : Expr.evalFields (other.derivedFields settings catalog now) run = .ok cells')
    (hname : name ∈ [Field.duration, Field.status] →
      (name ∈ request.fieldsInPlay catalog ↔ name ∈ other.fieldsInPlay catalog)) :
    (Document.setAll cells run).members.lookup name
      = (Document.setAll cells' run).members.lookup name := by
  by_cases hderived : name ∈ [Field.duration, Field.status] ∧ name ∈ request.fieldsInPlay catalog
  · obtain ⟨hmem, hplay⟩ := hderived
    have hplay' := (hname hmem).mp hplay
    have hsegments : Path.segments name = [name] := by
      have hall : ∀ name ∈ [Field.duration, Field.status], Path.segments name = [name] := by decide
      exact hall name hmem
    have hentry : ∃ expr, (name, expr) ∈ request.derivedFields settings catalog now
        ∧ (name, expr) ∈ other.derivedFields settings catalog now := by
      rcases List.mem_cons.mp hmem with rfl | hmem
      · exact ⟨_, mem_derivedFields.mpr ⟨.inl rfl, hplay⟩, mem_derivedFields.mpr ⟨.inl rfl, hplay'⟩⟩
      · rw [List.mem_singleton.mp hmem] at hplay hplay' ⊢
        exact ⟨_, mem_derivedFields.mpr ⟨.inr rfl, hplay⟩, mem_derivedFields.mpr ⟨.inr rfl, hplay'⟩⟩
    obtain ⟨expr, hentry, hentry'⟩ := hentry
    obtain ⟨value, hvalue, hread⟩ := get?_derived hcells hrun hentry
    obtain ⟨value', hvalue', hread'⟩ := get?_derived hcells' hrun hentry'
    obtain ⟨ms, hms⟩ := Document.setAll_isObject ⟨_, hrun.eq_obj⟩ cells
    obtain ⟨ns, hns⟩ := Document.setAll_isObject ⟨_, hrun.eq_obj⟩ cells'
    rw [hms, Document.get?_name_obj hsegments] at hread
    rw [hns, Document.get?_name_obj hsegments] at hread'
    rw [hms, hns]
    exact hread.trans ((congrArg some (Except.ok.inj (hvalue.symm.trans hvalue'))).trans
      hread'.symm)
  · have hnot : name ∈ [Field.duration, Field.status] → name ∉ request.fieldsInPlay catalog :=
      fun hmem hplay => hderived ⟨hmem, hplay⟩
    rw [lookup_setAll_derived (names_evalFields hcells) hnot,
      lookup_setAll_derived (names_evalFields hcells') fun hmem hplay' =>
        hnot hmem ((hname hmem).mpr hplay')]

/-- So the derived columns of two requests make the same of a run wherever neither of them is alone
in deriving what lies there. -/
theorem sameAt_beside (hrun : IsRun run)
    (hcells : Expr.evalFields (request.derivedFields settings catalog now) run = .ok cells)
    (hcells' : Expr.evalFields (other.derivedFields settings catalog now) run = .ok cells')
    (hduration : Path.covers Field.duration field = true →
      (Field.duration ∈ request.fieldsInPlay catalog ↔ Field.duration ∈ other.fieldsInPlay catalog))
    (hstatus : field = Field.status →
      (Field.status ∈ request.fieldsInPlay catalog ↔ Field.status ∈ other.fieldsInPlay catalog)) :
    Document.SameAt (Path.segments field) (Document.setAll cells run)
      (Document.setAll cells' run) := by
  have hlookup : ∀ {s : String} {rest : List String}, (s ∈ [Field.duration, Field.status] →
      (s ∈ request.fieldsInPlay catalog ↔ s ∈ other.fieldsInPlay catalog)) →
      Document.SameAt (s :: rest) (Document.setAll cells run) (Document.setAll cells' run) := by
    intro s rest hs
    have hsame := lookup_derived_eq hrun hcells hcells' hs
    obtain ⟨ms, hms⟩ := Document.setAll_isObject ⟨_, hrun.eq_obj⟩ cells
    obtain ⟨ns, hns⟩ := Document.setAll_isObject ⟨_, hrun.eq_obj⟩ cells'
    rw [hms, hns] at hsame ⊢
    exact Document.sameAt_of_lookup_eq hsame
  cases hsegs : Path.segments field with
  | nil => exact absurd hsegs (Path.segments_ne_nil field)
  | cons s rest =>
      by_cases hs : s = Field.status
      -- a request may derive the status alone, but then only the status itself is not the same
      · subst hs
        cases rest with
        | nil =>
            have hfield : field = Field.status :=
              Path.segments_injective (hsegs.trans (by decide))
            exact hlookup fun _ => hstatus hfield
        | cons t rest =>
            exact (sameAt_below_status hrun hcells).trans (sameAt_below_status hrun hcells').symm
      · refine hlookup fun hmem => ?_
        have hs : s = Field.duration := (List.mem_cons.mp hmem).resolve_right fun hmem =>
          hs (List.mem_singleton.mp hmem)
        subst hs
        refine hduration (Path.covers_iff.mpr ?_)
        rw [hsegs]
        exact List.cons_prefix_cons.mpr ⟨rfl, List.nil_prefix⟩

/-! ## Rows beside each other -/

namespace WellPosed

variable (h : request.WellPosed settings catalog store)

include h

theorem sameAt_rowAt_base {joined : Bool} (hrun : run ∈ store.documents settings.runs)
    (hbase : request.baseRow settings catalog now run = .ok base)
    (hrow : (if joined then request.fullRow catalog foreign base else .ok base) = .ok row)
    (hplay : field ∈ request.fieldsInPlay catalog) (hmetric : catalog.isMetric field = false) :
    Document.SameAt (Path.segments field) row base := by
  cases joined with
  | true =>
      exact h.unclashing.sameAt_fullRow hrun hbase hrow (h.apart_table (.inl hplay))
        fun column hcolumn => h.unclashing.apart_column hcolumn hplay hmetric
  | false =>
      rw [Except.ok.inj hrow]
      exact .refl _ row

theorem get?_id_rowAt {joined : Bool} (hrun : run ∈ store.documents settings.runs)
    (hrow : request.rowAt settings catalog now foreign joined run = .ok row) :
    Document.get? Field.id row = Document.get? Field.id run := by
  obtain ⟨base, hbase, hrow⟩ := rowAt_eq_ok.mp hrow
  cases joined with
  | true => exact (h.id_fullRow hrun hbase hrow).2
  | false =>
      cases hrow
      exact (h.unclashing.isRun_baseRow hrun hbase).2

/-- A metric column holds its cell, and a filter arrives there where a read arrives. -/
theorem get?_column (hnames : (catalog.metricColumns.map (·.name)).Nodup)
    (hcolumn : column ∈ (request.needs catalog).metricColumns)
    (hrun : run ∈ store.documents settings.runs)
    (hbase : request.baseRow settings catalog now run = .ok base)
    (hfull : request.fullRow catalog foreign base = .ok row) :
    ∃ value, cell (request.series catalog) foreign run column = .ok value
      ∧ Document.get? column.name row = some value
      ∧ Document.Direct (Path.segments column.name) row := by
  have hjoin : (request.needs catalog).join = true := by
    rw [Needs.join, Bool.not_eq_true', List.isEmpty_eq_false_iff_exists_mem]
    exact ⟨column, hcolumn⟩
  obtain ⟨cells, hcells, rfl⟩ := (h.fullRow_eq_ok hrun hbase).mp hfull
  rw [if_pos hjoin]
  obtain ⟨value, hvalue, hmem⟩ := hcells.exists_mem hcolumn
  have hwritable : Document.Writable (Table.names cells)
      (withTable (seriesNames (request.needs catalog).metricColumns).names foreign base) := by
    rw [hcells.names_eq]
    exact h.unclashing.writable_columns_withTable hrun hbase
  have hnodup : (Table.names cells).Nodup := by
    rw [hcells.names_eq]
    exact hnames.sublist (List.filter_sublist.map _)
  refine ⟨value, hvalue, ?_, ?_⟩
  · exact Document.get?_setAll hwritable (Table.mem_names hmem) fun _ hwrite =>
      Table.eq_of_mem hnodup hmem hwrite
  · exact ((hwritable.setAll fun _ => id).clear _ (Table.mem_names hmem)).direct

end WellPosed

/-- Two requests show the same cell in a metric column that both refer to, if both look up the same
series or the references to the series of the column are labelled right. -/
theorem sameAt_column (h : request.WellPosed settings catalog store)
    (h' : other.WellPosed settings catalog store)
    (hnames : (catalog.metricColumns.map (·.name)).Nodup)
    (hcolumn : column ∈ catalog.metricColumns) (hrun : run ∈ store.documents settings.runs)
    (hbase : request.baseRow settings catalog now run = .ok base)
    (hbase' : other.baseRow settings catalog now run = .ok base')
    (hfull : request.fullRow catalog foreign base = .ok row)
    (hfull' : other.fullRow catalog foreign base' = .ok row')
    (hplay : column.name ∈ request.fieldsInPlay catalog)
    (hplay' : column.name ∈ other.fieldsInPlay catalog)
    (hseries : request.series catalog = other.series catalog ∨ Labelled foreign column.series run) :
    Document.SameAt (Path.segments column.name) row row' := by
  have hneeded := mem_metricColumns.mpr ⟨hcolumn, hplay⟩
  have hneeded' := mem_metricColumns.mpr ⟨hcolumn, hplay'⟩
  obtain ⟨value, hvalue, hread, hdirect⟩ := h.get?_column hnames hneeded hrun hbase hfull
  obtain ⟨value', hvalue', hread', hdirect'⟩ := h'.get?_column hnames hneeded' hrun hbase' hfull'
  have hcell : value = value' := by
    rcases hseries with hseries | hlabelled
    · rw [hseries] at hvalue
      exact Except.ok.inj (hvalue.symm.trans hvalue')
    -- either request finds what it would find if the series of the column alone were wanted
    · rw [series, cell_eq_of_labelled (mem_seriesNames hneeded) hlabelled] at hvalue
      rw [series, cell_eq_of_labelled (mem_seriesNames hneeded') hlabelled] at hvalue'
      exact Except.ok.inj (hvalue.symm.trans hvalue')
  have hget : Document.get? column.name row = Document.get? column.name row' := by
    rw [hread, hread', hcell]
  have hsame := Document.SameAt.append hget hdirect hdirect' []
  rwa [List.append_nil] at hsame

/-- Before the join, the rows of two requests are read alike at a field that both refer to, unless
it lies below a duration that only one of them derives. -/
theorem sameAt_baseRow (h : request.WellPosed settings catalog store)
    (h' : other.WellPosed settings catalog store) (hrun : run ∈ store.documents settings.runs)
    (hbase : request.baseRow settings catalog now run = .ok base)
    (hbase' : other.baseRow settings catalog now run = .ok base')
    (hplay : field ∈ request.fieldsInPlay catalog) (hplay' : field ∈ other.fieldsInPlay catalog)
    (hduration : Path.isAncestor Field.duration field = true →
      (Field.duration ∈ request.fieldsInPlay catalog
        ↔ Field.duration ∈ other.fieldsInPlay catalog)) :
    Document.get? field base = Document.get? field base'
      ∧ (Document.SameAt (Path.segments field) (request.shownRow catalog run) run →
        Document.SameAt (Path.segments field) (other.shownRow catalog run) run →
        Document.SameAt (Path.segments field) base base') := by
  obtain ⟨cells, hcells, rfl⟩ := (h.keepsId run).baseRow_eq_ok.mp hbase
  obtain ⟨cells', hcells', rfl⟩ := (h'.keepsId run).baseRow_eq_ok.mp hbase'
  have hisRun := h.runs run hrun
  have hbeside : Document.SameAt (Path.segments field) (Document.setAll cells run)
      (Document.setAll cells' run) := by
    refine sameAt_beside hisRun hcells hcells' (fun hcovers => ?_) fun hstatus => ?_
    · rw [Path.covers, Bool.or_eq_true, beq_iff_eq] at hcovers
      rcases hcovers with rfl | habove
      · exact ⟨fun _ => hplay', fun _ => hplay⟩
      · exact hduration habove
    · rw [← hstatus]
      exact ⟨fun _ => hplay', fun _ => hplay⟩
  have hread := (h.keepsId run).getAt?_derived hisRun (names_evalFields hcells)
    ((h.keepsId run).get?_shownRow (mem_forcedFields_of_inPlay hplay))
  have hread' := (h'.keepsId run).getAt?_derived hisRun (names_evalFields hcells')
    ((h'.keepsId run).get?_shownRow (mem_forcedFields_of_inPlay hplay'))
  refine ⟨hread.trans (hbeside.1.trans hread'.symm), fun hseen hseen' => ?_⟩
  exact ((h.keepsId run).sameAt_derived hisRun (names_evalFields hcells) hseen).trans
    (hbeside.trans ((h'.keepsId run).sameAt_derived hisRun (names_evalFields hcells') hseen').symm)

/-- The rows of two requests are read alike at a field that both refer to, before the join or behind
it; and filters find the same there if both requests see the field as it is stored. -/
theorem sameAt_rowAt {joined : Bool} (h : request.WellPosed settings catalog store)
    (h' : other.WellPosed settings catalog store)
    (hnames : (catalog.metricColumns.map (·.name)).Nodup)
    (hrun : run ∈ store.documents settings.runs)
    (hrow : request.rowAt settings catalog now foreign joined run = .ok row)
    (hrow' : other.rowAt settings catalog now foreign joined run = .ok row')
    (hplay : field ∈ request.fieldsInPlay catalog) (hplay' : field ∈ other.fieldsInPlay catalog)
    (hduration : Path.isAncestor Field.duration field = true →
      (Field.duration ∈ request.fieldsInPlay catalog ↔ Field.duration ∈ other.fieldsInPlay catalog))
    (hmetric : ∀ column ∈ catalog.metricColumns, column.name = field → joined = true
      ∧ (request.series catalog = other.series catalog ∨ Labelled foreign column.series run)) :
    Document.get? field row = Document.get? field row'
      ∧ (Document.SameAt (Path.segments field) (request.shownRow catalog run) run →
        Document.SameAt (Path.segments field) (other.shownRow catalog run) run →
        Document.SameAt (Path.segments field) row row') := by
  obtain ⟨base, hbase, hrow⟩ := rowAt_eq_ok.mp hrow
  obtain ⟨base', hbase', hrow'⟩ := rowAt_eq_ok.mp hrow'
  by_cases hcolumn : catalog.isMetric field = true
  · obtain ⟨column, hmem, hname⟩ := List.any_eq_true.mp hcolumn
    rw [beq_iff_eq] at hname
    subst hname
    obtain ⟨rfl, hseries⟩ := hmetric column hmem rfl
    rw [if_pos rfl] at hrow hrow'
    have hsame :=
      sameAt_column h h' hnames hmem hrun hbase hbase' hrow hrow' hplay hplay' hseries
    exact ⟨hsame.1, fun _ _ => hsame⟩
  · rw [Bool.not_eq_true] at hcolumn
    have hsame := h.sameAt_rowAt_base hrun hbase hrow hplay hcolumn
    have hsame' := h'.sameAt_rowAt_base hrun hbase' hrow' hplay' hcolumn
    obtain ⟨hread, hseen⟩ := sameAt_baseRow h h' hrun hbase hbase' hplay hplay' hduration
    exact ⟨hsame.1.trans (hread.trans hsame'.1.symm),
      fun hsees hsees' => hsame.trans ((hseen hsees hsees').trans hsame'.symm)⟩

/-! ## Whole answers -/

/-- Two requests that differ in their selections alone find the same runs in the same order if both
succeed, provided that both see the fields of the filter as they are stored, that none or both of
them derive the duration that such a field or the sort key lies below, and that both look up the
same series or references are labelled right where the filter or the sort looks at a metric
column. -/
theorem selection_keeps_found (selection : List String) {rows' : List Json}
    (h : request.WellPosed settings catalog store)
    (h' : (request.selecting selection).WellPosed settings catalog store)
    (hmode : request.mode = .list) (hnames : (catalog.metricColumns.map (·.name)).Nodup)
    (hsees : ∀ run ∈ store.documents settings.runs,
      request.Sees catalog run ∧ (request.selecting selection).Sees catalog run)
    (hduration : ∀ field, request.Decides catalog field →
      Path.isAncestor Field.duration field = true →
      (Field.duration ∈ request.fieldsInPlay catalog
        ↔ Field.duration ∈ (request.selecting selection).fieldsInPlay catalog))
    (hlabels : request.series catalog = (request.selecting selection).series catalog
      ∨ ∀ column ∈ catalog.metricColumns, request.Decides catalog column.name →
        ∀ run ∈ store.documents settings.runs,
          Labelled (store.documents settings.metrics) column.series run)
    (hrows : (request.compile settings catalog now).execute store = .ok (.page rows))
    (hrows' : ((request.selecting selection).compile settings catalog now).execute store
      = .ok (.page rows')) :
    rows.map (Document.get? Field.id) = rows'.map (Document.get? Field.id) := by
  obtain ⟨v, keeps, g, hv, hkeeps, hg, hfound⟩ := h.execute_finds hmode hrows
  obtain ⟨v', keeps', g', hv', hkeeps', hg', hfound'⟩ := h'.execute_finds hmode hrows'
  -- the filters decide alike
  have hkeep : ∀ run ∈ store.documents settings.runs, keeps run = keeps' run := by
    intro run hrun
    refine Except.ok.inj ((hkeeps run hrun).symm.trans (Eq.trans ?_ (hkeeps' run hrun)))
    refine verdict_congr fun field hfield => ?_
    have hplay : field ∈ request.fieldsInPlay catalog := inPlay_of_filter hfield
    have hplay' : field ∈ (request.selecting selection).fieldsInPlay catalog :=
      inPlay_of_filter hfield
    refine (sameAt_rowAt h h' hnames hrun (hv run hrun) (hv' run hrun) hplay hplay'
      (hduration field (.inl hfield)) fun column hcolumn hname => ⟨?_, ?_⟩).2
      (h.sameAt_shownRow (hsees run hrun).1 hfield) (h'.sameAt_shownRow (hsees run hrun).2 hfield)
    · exact List.any_eq_true.mpr ⟨field, hfield,
        List.any_eq_true.mpr ⟨column, hcolumn, beq_iff_eq.mpr hname⟩⟩
    · exact hlabels.imp_right fun hlabels =>
        hlabels column hcolumn (.inl (hname ▸ hfield)) run hrun
  have hfilter : (store.documents settings.runs).filter keeps
      = (store.documents settings.runs).filter keeps' := List.filter_congr hkeep
  -- the sorts order alike
  have hpage : request.found settings catalog store keeps g
      = (request.selecting selection).found settings catalog store keeps' g' := by
    rw [found, found, ← hfilter]
    refine Paging.page_congr fun run hrun key hkey => congrArg (Option.getD · Json.null) ?_
    have hmem := (List.mem_filter.mp hrun).1
    have hrow' := hg' run (hfilter ▸ hrun)
    rcases keys_paging hkey with ⟨hplay, hfield⟩ | hid
    · have hplay' : key.1 ∈ (request.selecting selection).fieldsInPlay catalog :=
        inPlay_of_sort hfield
      refine (sameAt_rowAt h h' hnames hmem (hg run hrun) hrow' hplay hplay'
        (hduration key.1 (.inr hfield)) fun column hcolumn hname => ⟨?_, ?_⟩).1
      · rw [Bool.or_eq_true, hfield]
        exact .inl (List.any_eq_true.mpr ⟨column, hcolumn, beq_iff_eq.mpr hname⟩)
      · exact hlabels.imp_right fun hlabels =>
          hlabels column hcolumn (.inr (hname ▸ hfield)) run hmem
    · rw [hid, h.get?_id_rowAt hmem (hg run hrun), h'.get?_id_rowAt hmem hrow']
  rw [hfound, hfound', hpage]

/-- A run with two references, found by the least value of one series while the last value of the
other is shown beside it. -/
theorem selection_keeps_found_of_one :
    let run := Json.obj [("_id", .int 1), ("info", .single "metrics" (.arr [
      .obj [("name", .str "loss"), ("id", .int 7)],
      .obj [("name", .str "rate"), ("id", .int 8)]]))]
    let store : Store := { collections := [
      ("runs", [run]),
      ("metrics", [
        .obj [("_id", .int 7), ("name", .str "loss"), ("values", .arr [.int 1])],
        .obj [("_id", .int 8), ("name", .str "rate"), ("values", .arr [.int 4])]])] }
    let catalog : Catalog := {
      metricColumns := [⟨"best", "loss", .least, none⟩, ⟨"speed", "rate", .last, none⟩] }
    let request : Request := { filter := some (.single "best" (.single "$gt" (.int 0))) }
    ∃ rows rows', (request.compile {} catalog ⟨0, 0⟩).execute store = .ok (.page rows)
      ∧ ((request.selecting ["speed"]).compile {} catalog ⟨0, 0⟩).execute store
        = .ok (.page rows')
      ∧ rows.map (Document.get? Field.id) = rows'.map (Document.get? Field.id) := by
  intro run store catalog request
  have hposed : request.WellPosed {} catalog store := .of_names (by decide)
  have hposed' : (request.selecting ["speed"]).WellPosed {} catalog store := .of_names (by decide)
  have hverdict : (request.rowAt {} catalog ⟨0, 0⟩ (store.documents "metrics") true run
      >>= verdict request.filter).toOption = some true := by decide
  have hverdict' : ((request.selecting ["speed"]).rowAt {} catalog ⟨0, 0⟩
      (store.documents "metrics") true run >>= verdict request.filter).toOption = some true := by
    decide
  obtain ⟨rows, hrows, -⟩ := hposed.execute_single rfl rfl (by decide) rfl hverdict
  obtain ⟨rows', hrows', -⟩ := hposed'.execute_single rfl rfl (by decide) rfl hverdict'
  have hsees : ∀ run ∈ store.documents "runs",
      request.Sees catalog run ∧ (request.selecting ["speed"]).Sees catalog run := by
    refine fun run hrun => ⟨.inl rfl, .inr fun field hfield => ⟨field, inPlay_of_filter hfield,
      Path.covers_iff.mpr (List.prefix_refl _), ?_⟩⟩
    have hsegments : ∀ field ∈ request.filterFields.names, Path.segments field = ["best"] := by
      decide
    rw [hsegments field hfield, (hposed.runs run hrun).eq_obj]
    exact (Document.clear_single _).direct
  have hduration : Field.duration ∈ request.fieldsInPlay catalog
      ↔ Field.duration ∈ (request.selecting ["speed"]).fieldsInPlay catalog := by decide
  have hlabels : ∀ column ∈ catalog.metricColumns, request.Decides catalog column.name →
      ∀ run ∈ store.documents "runs", Labelled (store.documents "metrics") column.series run := by
    have hall : ∀ column ∈ catalog.metricColumns, ∀ run ∈ store.documents "runs",
        Labelled (store.documents "metrics") column.series run := by decide
    exact fun column hcolumn _ => hall column hcolumn
  exact ⟨rows, rows', hrows, hrows', selection_keeps_found ["speed"] hposed hposed' rfl (by decide)
    hsees (fun _ _ _ => hduration) (.inr hlabels) hrows hrows'⟩

/-! ## Other runs -/

/-- A well-posed list request that finds other runs of a store with another selection. -/
structure FindsOthers (request : Request) (selection : List String) (catalog : Catalog)
    (store : Store) : Prop where
  posed : request.WellPosed {} catalog store
  posed' : (request.selecting selection).WellPosed {} catalog store
  other : ∃ rows rows', (request.compile {} catalog ⟨0, 0⟩).execute store = .ok (.page rows)
    ∧ ((request.selecting selection).compile {} catalog ⟨0, 0⟩).execute store = .ok (.page rows')
    ∧ rows.map (Document.get? Field.id) ≠ rows'.map (Document.get? Field.id)

/-- The only run of a store is found with one selection alone if the verdicts differ. -/
theorem FindsOthers.of_verdicts {selection : List String} {keep keep' : Bool}
    (hposed : request.WellPosed {} catalog store)
    (hposed' : (request.selecting selection).WellPosed {} catalog store)
    (hmode : request.mode = .list) (hskip : request.skip = 0) (hlimit : 0 < request.pageSize {})
    (hstore : store.documents "runs" = [run])
    (hverdict : (request.rowAt {} catalog ⟨0, 0⟩ (store.documents "metrics") true run
      >>= verdict request.filter).toOption = some keep)
    (hverdict' : ((request.selecting selection).rowAt {} catalog ⟨0, 0⟩
      (store.documents "metrics") true run >>= verdict request.filter).toOption = some keep')
    (hne : keep ≠ keep') :
    FindsOthers request selection catalog store := by
  obtain ⟨rows, hrows, hids⟩ := hposed.execute_single hmode hskip hlimit hstore hverdict
  obtain ⟨rows', hrows', hids'⟩ := hposed'.execute_single hmode hskip hlimit hstore hverdict'
  refine ⟨hposed, hposed', rows, rows', hrows, hrows', ?_⟩
  rw [hids, hids']
  cases keep <;> cases keep' <;> simp_all

/-- Two of the conditions come with the columns. A selection decides which runs are found if the
filter looks below a stored duration that only one request replaces, and if a reference bears
another name than its series. -/
theorem selection_changes_found :
    FindsOthers { filter := some (.single "duration.hours" (.int 1)) } ["duration"] {}
      { collections := [("runs", [
        .obj [("_id", .int 1), ("duration", .single "hours" (.int 1))]])] }
    ∧ FindsOthers { filter := some (.single "best" (.single "$lt" (.int 1))) } ["speed"]
      { metricColumns := [⟨"best", "loss", .least, none⟩, ⟨"speed", "rate", .last, none⟩] }
      { collections := [
        ("runs", [
          .obj [("_id", .int 1), ("info", .single "metrics" (.arr [
            .obj [("name", .str "rate"), ("id", .int 7)]]))]]),
        ("metrics", [
          .obj [("_id", .int 7), ("name", .str "loss"), ("values", .arr [.int 0])]])] } := by
  constructor
  · exact .of_verdicts (.of_names (by decide)) (.of_names (by decide)) rfl rfl (by decide) rfl
      rfl rfl (by decide)
  · exact .of_verdicts (.of_names (by decide)) (.of_names (by decide)) rfl rfl (by decide) rfl
      rfl rfl (by decide)

/-- A filter field is copied to the rows so that the filter has it, whatever is selected, but only
what is read at the field, and a read does not pass through an array as the filter does. So a filter
that looks into the items of an array loses them to any selection. -/
theorem selection_loses_items :
    let request : Request := { filter := some (.single "info.metrics.name" (.str "loss")) }
    let run := Json.obj [("_id", .int 1), ("info", .single "metrics" (.arr [
      .single "name" (.str "loss")]))]
    "info.metrics.name" ∈ ((request.selecting ["status"]).needs {}).fields.included.names
      ∧ Document.candidates "info.metrics.name" run = [.str "loss"]
      ∧ Document.candidates "info.metrics.name"
        ((request.selecting ["status"]).shownRow {} run) = []
      ∧ FindsOthers request ["status"] {} { collections := [("runs", [run])] } := by
  intro request run
  have hverdict : (request.rowAt {} {} ⟨0, 0⟩ [] true run
      >>= verdict request.filter).toOption = some true := by decide
  have hverdict' : ((request.selecting ["status"]).rowAt {} {} ⟨0, 0⟩ [] true run
      >>= verdict request.filter).toOption = some false := by decide
  have hsegments : Path.segments "info.metrics.name" = ["info", "metrics", "name"] := by decide
  have hfound : Document.candidates "info.metrics.name" run = [.str "loss"] := by
    rw [Document.candidates, hsegments]
    rfl
  have hlost : (Document.candidates "info.metrics.name"
      ((request.selecting ["status"]).shownRow {} run)).length = 0 := by decide
  refine ⟨by decide, hfound, List.eq_nil_of_length_eq_zero hlost, ?_⟩
  exact .of_verdicts (.of_names (by decide)) (.of_names (by decide)) rfl rfl (by decide) rfl
    hverdict hverdict' (by decide)

end Request

end RunTable
