import RunTable.Proofs.StrippedFields
import RunTable.Proofs.UnpagedPipelines

/-!
# The rows of a response

Whatever a request filters, sorts, cuts and joins, each row of its response is made of one run: the
row that is read of it, with derived columns and with metric columns, less what is stripped. Filters
and pages only choose among the runs.

So what a response shows is a question about one row, and it has a short answer. Without a selection
the row is the whole run with the columns that the filter or the sort refers to. With one, a
selected path reads in the row what it reads there. Fields that are read for other reasons come and
go without a trace on it.
-/

namespace RunTable

open Outcome MetricJoin

namespace MetricJoin

/-- The table of a run's series has its names apart if the series have. -/
theorem namesApart_table {names : List String} {foreign : List Json} {run : Json}
    (h : ∀ doc ∈ foreign, doc.namesApart = true) :
    (Json.obj (table names foreign run)).namesApart = true := by
  refine Json.namesApart_ofList fun entry hentry => ?_
  obtain ⟨target, htarget, rfl⟩ := List.mem_map.mp hentry
  refine Json.namesApart_getD fun series hseries => ?_
  obtain rfl : target = some series := hseries
  obtain ⟨id, hfind⟩ := find_of_mem_targets htarget
  exact h series (List.mem_of_find?_eq_some hfind)

theorem namesApart_columnFields (columns : List MetricColumn) :
    Expr.namesApartFields (columnFields columns) = true := by
  induction columns with
  | nil => rfl
  | cons column columns ih =>
      have hcolumn : (columnExpr column).namesApart = true := by
        rw [columnExpr]
        cases column.reduction <;> rfl
      exact Bool.and_eq_true_iff.mpr ⟨hcolumn, ih⟩

end MetricJoin

namespace Request

variable {request : Request} {settings : Settings} {catalog : Catalog} {now : Instant}
  {store : Store} {collections : Collections} {foreign runs rows : List Json} {g : Json → Json}
  {run row base full whole : Json} {response : Response} {field path name : String}

/-! ## One run for each row -/

/-- Whether a row is what is shown of a run. -/
def IsShown (request : Request) (settings : Settings) (catalog : Catalog) (now : Instant)
    (foreign : List Json) (run row : Json) : Prop :=
  ∃ base full, request.baseRow settings catalog now run = .ok base
    ∧ request.fullRow catalog foreign base = .ok full ∧ row = request.stripRow catalog full

/-- Each row of a response is what is shown of one run. -/
theorem Unclashing.rows_of_execute (h : request.Unclashing settings catalog store)
    (hmode : request.mode ≠ .count)
    (hresponse : (request.compile settings catalog now).execute store = .ok response) :
    ∃ found : List Json, found.Nodup ∧ (∀ run ∈ found, run ∈ store.documents settings.runs)
      ∧ List.Forall₂ (request.IsShown settings catalog now (store.documents settings.metrics))
        found response.rows :=
  (h.toIdentifies.joinsBy now).rows_of_execute hmode hresponse

/-! ## Names in the rows -/

theorem namesApart_shownRow (h : run.namesApart = true) :
    (request.shownRow catalog run).namesApart = true := by
  rw [shownRow]
  split
  · exact Projection.namesApart_apply_keep h
  · exact h

theorem namesApart_baseRow (h : run.namesApart = true)
    (hbase : request.baseRow settings catalog now run = .ok base) : base.namesApart = true := by
  obtain ⟨cells, hcells, rfl⟩ := computeFields_eq_ok.mp hbase
  have hfields : Expr.namesApartFields (request.derivedFields settings catalog now) = true := by
    rw [derivedFields]
    split <;> split <;> rfl
  have hshown : (request.shownRow catalog run).namesApart = true := namesApart_shownRow h
  exact Document.namesApart_setAll hshown (Expr.namesApart_evalFields _ hfields hshown hcells)

theorem Unclashing.namesApart_fullRow (h : request.Unclashing settings catalog store)
    (hrun : run ∈ store.documents settings.runs) (hapart : run.namesApart = true)
    (hforeign : ∀ doc ∈ foreign, doc.namesApart = true)
    (hbase : request.baseRow settings catalog now run = .ok base)
    (hfull : request.fullRow catalog foreign base = .ok full) : full.namesApart = true := by
  have hbaseApart := namesApart_baseRow hapart hbase
  rw [fullRow] at hfull
  split at hfull
  · obtain ⟨cells, hcells, rfl⟩ := computeFields_eq_ok.mp hfull
    have htable : (withTable (seriesNames (request.needs catalog).metricColumns).names foreign
        base).namesApart = true := by
      rw [withTable_eq_set (h.isRun_baseRow hrun hbase).1]
      exact Document.namesApart_setAt hbaseApart (namesApart_table hforeign) _
    exact Document.namesApart_setAll htable
      (Expr.namesApart_evalFields _ (namesApart_columnFields _) htable hcells)
  · cases hfull
    exact hbaseApart

/-! ## What is stripped of a row -/

theorem shows_needs (request : Request) (catalog : Catalog) :
    (request.needs catalog).fields.Shows (request.selection catalog) := by
  rw [fields_needs]
  exact (FieldSets.shows_ofSelection _).foldl_force _

theorem mem_strippedPaths : path ∈ request.strippedPaths catalog
    ↔ path ∈ (request.needs catalog).fields.stripPaths
      ∨ (request.needs catalog).join = true ∧ path = tableField := by
  rw [strippedPaths, NameSet.mem_insertAll]
  refine or_congr_right ?_
  split
  · next hjoin => simp [hjoin, helperFields]
  · next hjoin => simp [hjoin]

theorem Unclashing.segments_stripped (h : request.Unclashing settings catalog store)
    (hfield : field ∈ (request.needs catalog).fields.stripped) :
    ∀ s ∈ Path.segments field, s ≠ "" := by
  have hsupport : ∀ field ∈ supportFields, ∀ s ∈ Path.segments field, s ≠ "" := by decide
  rcases (mem_stripped hfield).1 with hplay | hfield
  · exact h.segments field hplay
  · exact hsupport field hfield

theorem inPlay_of_selected (h : path ∈ request.selection catalog) :
    path ∈ request.fieldsInPlay catalog :=
  List.mem_append_left _ (List.mem_append_left _ h)

/-- Stripped paths are apart from all that is selected. -/
theorem Unclashing.apart_strippedPaths (h : request.Unclashing settings catalog store)
    (hpath : path ∈ request.strippedPaths catalog) (hfield : field ∈ request.selection catalog) :
    Path.Apart (Path.segments path) (Path.segments field) := by
  rcases mem_strippedPaths.mp hpath with hstrip | ⟨-, rfl⟩
  · have hshows := shows_needs request catalog
    exact (hshows.of_mem_stripPaths (fun _ => h.segments_stripped) hstrip).2.1 field hfield
  · exact h.apart_table (.inl (inPlay_of_selected hfield))

theorem namesApart_stripRow (h : full.namesApart = true) :
    (request.stripRow catalog full).namesApart = true := by
  rw [stripRow]
  split
  · exact h
  · exact Projection.namesApart_apply_drop h

theorem getAt?_stripRow_of_apart (h : full.namesApart = true) {q : List String}
    (hq : ∀ path ∈ request.strippedPaths catalog, Path.Apart (Path.segments path) q) :
    Document.getAt? q (request.stripRow catalog full) = Document.getAt? q full := by
  rw [stripRow]
  split
  · rfl
  · exact Projection.getAt?_apply_drop_of_apart h hq

theorem getAt?_stripRow_eq_some (h : full.namesApart = true) {q : List String} {value : Json}
    (hread : Document.getAt? q (request.stripRow catalog full) = some value) :
    Document.getAt? q full = some value
      ∨ ∃ ms ns, Document.getAt? q full = some (.obj ms) ∧ value = .obj ns := by
  rw [stripRow] at hread
  split at hread
  · exact .inl hread
  · exact Projection.getAt?_apply_drop_eq_some h hread

theorem getAt?_stripRow_eq_none (h : full.namesApart = true) {q : List String}
    (hnone : Document.getAt? q full = none) :
    Document.getAt? q (request.stripRow catalog full) = none := by
  cases hread : Document.getAt? q (request.stripRow catalog full) with
  | none => rfl
  | some value =>
      rcases getAt?_stripRow_eq_some h hread with hsome | ⟨ms, -, hsome, -⟩ <;>
        rw [hnone] at hsome <;> cases hsome

theorem getAt?_stripRow_of_prefix (h : full.namesApart = true)
    (hpath : path ∈ request.strippedPaths catalog) {q : List String}
    (hq : Path.segments path <+: q) (harrays : ∀ root ∈ request.strippedPaths catalog,
      Path.covers root path = true → Document.NoArrayAbove (Path.segments root) full) :
    Document.getAt? q (request.stripRow catalog full) = none := by
  rw [stripRow]
  split
  · next hempty =>
      have hmem : path ∈ (request.strippedPaths catalog).names := hpath
      rw [List.isEmpty_iff.mp hempty] at hmem
      cases hmem
  · exact Projection.getAt?_apply_drop_of_prefix h hpath hq harrays

/-- Without a selection nothing but the table of series is stripped. -/
theorem eq_tableField_of_selects_all (hall : request.selection catalog = [])
    (hpath : path ∈ request.strippedPaths catalog) : path = tableField := by
  rcases mem_strippedPaths.mp hpath with hstrip | ⟨-, heq⟩
  · have hexplicit : (FieldSets.ofSelection []).isExplicit = false := rfl
    rw [fields_needs, hall, FieldSets.foldl_force_of_not_explicit hexplicit] at hstrip
    exact absurd hstrip (NameSet.not_mem_empty path)
  · exact heq

/-! ## What a row shows -/

namespace Unclashing

variable (h : request.Unclashing settings catalog store)
  (hrun : run ∈ store.documents settings.runs) (hfull : full.namesApart = true)
  (hbase : request.baseRow settings catalog now run = .ok base)
  (hjoined : request.fullRow catalog foreign base = .ok full)
  (hwhole : request.wholeRow settings catalog now foreign run = .ok whole)

include h hrun hfull hbase hjoined hwhole

/-- A selected path reads in the row what it reads in the run with all columns. -/
theorem get?_stripRow_of_selected (hpath : path ∈ request.selection catalog) :
    Document.get? path (request.stripRow catalog full) = Document.get? path whole := by
  have hstrip : Document.get? path (request.stripRow catalog full) = Document.get? path full :=
    getAt?_stripRow_of_apart hfull fun stripped hstripped => h.apart_strippedPaths hstripped hpath
  have hread : Document.get? path (request.shownRow catalog run) = Document.get? path run :=
    (h.keepsId run hrun).get?_shownRow (.inl hpath)
  rw [hstrip]
  exact (h.sameAt_wholeRow hrun hbase hjoined hwhole
    (h.apart_table (.inl (inPlay_of_selected hpath)))).1 hread

omit hwhole hfull in
/-- The full row is an object. -/
theorem isObject_fullRow : ∃ members, full = .obj members := by
  obtain ⟨cells, -, rfl⟩ := (h.fullRow_eq_ok hrun hbase).mp hjoined
  split
  · exact Document.setAll_isObject ⟨_, rfl⟩ cells
  · exact ⟨_, (h.isRun_baseRow hrun hbase).1.eq_obj⟩

omit hfull hbase hjoined in
/-- The run with all columns has no table of series. -/
theorem lookup_tableField_wholeRow : whole.members.lookup tableField = none := by
  obtain ⟨derived, cells, hderived, hcells, rfl⟩ := wholeRow_eq_ok.mp hwhole
  rw [Document.lookup_setAll_of_not_mem, Document.lookup_setAll_of_not_mem]
  · exact (h.runs run hrun).lookup_eq_none (by simp)
  · exact fun path hpath => head?_derivedFields (names_evalFields hderived) path hpath _ (by simp)
  · intro path hpath
    rw [names_columnFields hcells] at hpath
    obtain ⟨column, hcolumn, rfl⟩ := List.mem_map.mp hpath
    exact h.head?_column hcolumn (by simp)

omit hwhole in
/-- The row is an object. -/
theorem isObject_stripRow : ∃ members, request.stripRow catalog full = .obj members := by
  obtain ⟨ms, rfl⟩ := h.isObject_fullRow hrun hbase hjoined
  have hroot : Document.getAt? [] (request.stripRow catalog (.obj ms))
      = some (request.stripRow catalog (.obj ms)) := rfl
  rcases getAt?_stripRow_eq_some hfull hroot with heq | ⟨-, ns, -, heq⟩
  · exact ⟨ms, (Option.some.inj heq).symm⟩
  · exact ⟨ns, heq⟩

omit hwhole in
/-- The table of series is stripped of every row that has it. -/
theorem lookup_tableField_stripRow :
    (request.stripRow catalog full).members.lookup tableField = none := by
  obtain ⟨ms, rfl⟩ := h.isObject_fullRow hrun hbase hjoined
  obtain ⟨members, hmembers⟩ := h.isObject_stripRow hrun hfull hbase hjoined
  have hread : Document.getAt? [tableField] (request.stripRow catalog (.obj ms)) = none := by
    by_cases hjoin : (request.needs catalog).join = true
    · have hmem : tableField ∈ request.strippedPaths catalog :=
        mem_strippedPaths.mpr (.inr ⟨hjoin, rfl⟩)
      have hself : Path.segments tableField <+: [tableField] :=
        segments_tableField ▸ List.prefix_refl _
      refine getAt?_stripRow_of_prefix hfull hmem hself fun root _ hroot => ?_
      -- what is stripped at or above the table is the table itself
      have hpre := Path.covers_iff.mp hroot
      rw [segments_tableField] at hpre
      obtain ⟨s, rest, hcons⟩ := List.exists_cons_of_ne_nil (Path.segments_ne_nil root)
      rw [hcons] at hpre ⊢
      rw [List.prefix_nil.mp (List.cons_prefix_cons.mp hpre).2]
      exact Document.noArrayAbove_single s ms
    · have hsame : Json.obj ms = base := by
        rw [fullRow, if_neg hjoin] at hjoined
        exact (Except.ok.inj hjoined).symm
      refine getAt?_stripRow_eq_none hfull ?_
      have hnone : base.members.lookup tableField = none :=
        (h.isRun_baseRow hrun hbase).1.lookup_eq_none (by simp)
      rw [← hsame] at hnone
      rw [Document.getAt?_obj]
      exact congrArg (Option.bind · _) hnone
  rw [hmembers] at hread ⊢
  rwa [← Document.getAt?_single]

/-- Without a selection the row has the members of the run with all columns, in some order. -/
theorem members_stripRow_of_selects_all (hall : request.selection catalog = []) :
    (request.stripRow catalog full).members.Perm whole.members := by
  have hnodup : (Table.names whole.members).Nodup := by
    obtain ⟨derived, cells, -, -, rfl⟩ := wholeRow_eq_ok.mp hwhole
    exact Document.nodup_names_setAll (Document.nodup_names_setAll (h.runs run hrun).nodup _) _
  refine Table.perm_of_lookup_eq
    (Json.nodup_names_of_namesApart (namesApart_stripRow hfull)) hnodup fun name => ?_
  by_cases hname : name = tableField
  · rw [hname, h.lookup_tableField_wholeRow hrun hwhole,
      h.lookup_tableField_stripRow hrun hfull hbase hjoined]
  -- any other member is left alone by the strip, and the row holds what the run holds
  · have happart : Path.Apart (Path.segments tableField) [name] := by
      rw [segments_tableField]
      exact Path.apart_of_head_ne (Ne.symm hname) [] []
    have hstrip : Document.getAt? [name] (request.stripRow catalog full)
        = Document.getAt? [name] full := getAt?_stripRow_of_apart hfull fun path hpath => by
      rw [eq_tableField_of_selects_all hall hpath]
      exact happart
    have hshown : request.shownRow catalog run = run := shownRow_of_selects_all hall run
    have hsame := (h.sameAt_wholeRow hrun hbase hjoined hwhole happart).1 (by rw [hshown])
    obtain ⟨members, hmembers⟩ := h.isObject_stripRow hrun hfull hbase hjoined
    obtain ⟨ms, hms⟩ : ∃ ms, whole = .obj ms := by
      obtain ⟨derived, cells, -, -, rfl⟩ := wholeRow_eq_ok.mp hwhole
      exact Document.setAll_isObject (Document.setAll_isObject ⟨_, (h.runs run hrun).eq_obj⟩ _) _
    have hread := hstrip.trans hsame
    rw [hmembers, hms] at hread
    rw [hmembers, hms, ← Document.getAt?_single, ← Document.getAt?_single]
    exact hread

omit hfull hbase hjoined in
/-- What a run stores is in the run with all columns, unless a derived column of its name is. -/
theorem lookup_wholeRow {value : Json} (hvalue : run.members.lookup name = some value)
    (hderived : name ∈ [Field.duration, Field.status] → name ∉ request.fieldsInPlay catalog) :
    whole.members.lookup name = some value := by
  obtain ⟨derived, cells, hderivedCells, hcells, rfl⟩ := wholeRow_eq_ok.mp hwhole
  rw [Document.lookup_setAll_of_not_mem, lookup_setAll_derived (names_evalFields hderivedCells)
    hderived, hvalue]
  intro path hpath hhead
  rw [names_columnFields hcells] at hpath
  obtain ⟨column, hcolumn, rfl⟩ := List.mem_map.mp hpath
  obtain ⟨s, rest, hcons⟩ := List.exists_cons_of_ne_nil (Path.segments_ne_nil column.name)
  rw [hcons] at hhead
  cases hhead
  rw [h.lookup_head_column hcolumn hrun hcons] at hvalue
  cases hvalue

end Unclashing

/-- Nothing selected is lost. Each row of a response comes from a run of its own. Without a
selection it has exactly the members of the run with the columns that the filter or the sort refers
to, so all that is stored is there; and a selected path reads in it what it reads in the run with
all columns. -/
theorem nothing_selected_is_lost (h : request.Unclashing settings catalog store)
    (hmode : request.mode ≠ .count)
    (hruns : ∀ run ∈ store.documents settings.runs, run.namesApart = true)
    (hseries : ∀ doc ∈ store.documents settings.metrics, doc.namesApart = true)
    (hresponse : (request.compile settings catalog now).execute store = .ok response) :
    ∃ found : List Json, found.Nodup ∧ (∀ run ∈ found, run ∈ store.documents settings.runs)
      ∧ List.Forall₂ (fun run row => ∃ whole,
          request.wholeRow settings catalog now (store.documents settings.metrics) run = .ok whole
          ∧ (request.selection catalog = [] → row.isObject = true
            ∧ row.members.Perm whole.members
            ∧ ∀ name value, run.members.lookup name = some value →
              (name ∈ [Field.duration, Field.status] → name ∉ request.fieldsInPlay catalog) →
              row.members.lookup name = some value)
          ∧ ∀ path ∈ request.selection catalog,
            Document.get? path row = Document.get? path whole)
        found response.rows := by
  obtain ⟨found, hnodup, hmem, hshown⟩ := h.rows_of_execute hmode hresponse
  refine ⟨found, hnodup, hmem, forall₂_imp_of_mem hshown fun run hfound row hrow => ?_⟩
  obtain ⟨base, full, hbase, hjoined, rfl⟩ := hrow
  have hrun := hmem run hfound
  obtain ⟨whole, hwhole⟩ := (h.exists_wholeRow_iff hrun).mpr ⟨base, full, hbase, hjoined⟩
  have hfull := h.namesApart_fullRow hrun (hruns run hrun) hseries hbase hjoined
  refine ⟨whole, hwhole, fun hall => ?_, fun path hpath =>
    h.get?_stripRow_of_selected hrun hfull hbase hjoined hwhole hpath⟩
  have hperm := h.members_stripRow_of_selects_all hrun hfull hbase hjoined hwhole hall
  obtain ⟨members, hmembers⟩ := h.isObject_stripRow hrun hfull hbase hjoined
  refine ⟨by rw [hmembers]; rfl, hperm, fun name value hvalue hderived => ?_⟩
  have hnames : (Table.names (request.stripRow catalog full).members).Nodup :=
    Json.nodup_names_of_namesApart (namesApart_stripRow hfull)
  rw [Table.lookup_perm hnames hperm]
  exact h.lookup_wholeRow hrun hwhole hvalue hderived

/-- A page that is filtered by a sibling of a selected setting and sorted by their parent, with a
metric. -/
theorem nothing_selected_is_lost_of_two :
    let run := fun (id rate size : Int) => Json.obj [("_id", .int id),
      ("config", .obj [("rate", .int rate), ("size", .int size)]),
      ("info", .single "metrics" (.arr [.obj [("name", .str "loss"), ("id", .int 7)]]))]
    let store : Store := { collections := [("runs", [run 1 30 8, run 2 10 8]),
      ("metrics", [.obj [("_id", .int 7), ("name", .str "loss"), ("values", .arr [.int 4])]])] }
    let catalog : Catalog := { metricColumns := [⟨"best", "loss", .least, none⟩] }
    let request : Request := {
      select := ["config.rate", "best"], filter := some (.single "config.size" (.int 8))
      sortBy := some "config" }
    ∃ rows found, (request.compile {} catalog ⟨0, 0⟩).execute store = .ok (.page rows)
      ∧ found.Nodup ∧ (∀ run ∈ found, run ∈ store.documents "runs")
      ∧ List.Forall₂ (fun run row => ∃ whole, request.wholeRow {} catalog ⟨0, 0⟩
            (store.documents "metrics") run = .ok whole
          ∧ ∀ path ∈ ["config.rate", "best"], Document.get? path row = Document.get? path whole)
        found rows := by
  intro run store catalog request
  have hposed : request.WellPosed {} catalog store := .of_names (by decide)
  obtain ⟨rows, hrows⟩ : ∃ rows, (request.compile {} catalog ⟨0, 0⟩).execute store
      = .ok (.page rows) := hposed.exists_page rfl (by decide)
  obtain ⟨found, hnodup, hmem, hshown⟩ := nothing_selected_is_lost hposed.unclashing
    (by decide) (by decide) (by decide) hrows
  refine ⟨rows, found, hrows, hnodup, hmem, hshown.imp fun run row hrow => ?_⟩
  obtain ⟨whole, hwhole, -, hselected⟩ := hrow
  exact ⟨whole, hwhole, hselected⟩

end Request

end RunTable
