import RunTable.Plan.MetricJoin
import RunTable.Proofs.Groups
import RunTable.Proofs.Writes

/-!
# The join hands every run on

A join takes its runs apart and puts them together again. A run becomes one row for each reference
to a wanted series, or a single row if it has none, the rows of all runs are gathered by the text of
their identifiers, and what is gathered is merged into the run. On the way each row carries the
whole run and at most two further members behind it.

That last fact is the invariant. Whatever a run refers to, the rows it becomes are the run itself
with nothing or a reference and then the series found behind it; so the first row of a group holds
the run, the group lists one entry for each reference, and the helpers stand behind everything that
was stored, where their removal moves no stored member. The table of series is all that stays.
-/

namespace RunTable.MetricJoin

open Outcome

variable {collections : Collections} {names : List String} {collection : String}
  {foreign runs : List Json} {run row : Json} {columns : List MetricColumn}

/-! ## What a join means -/

/-- An object with an identifier, whose names are apart. -/
structure IsRecord (row : Json) : Prop where
  isObject : row.isObject = true
  nodup : (Table.names row.members).Nodup
  identified : Field.id ∈ Table.names row.members

instance (row : Json) : Decidable (IsRecord row) :=
  decidable_of_iff
    (row.isObject = true ∧ (Table.names row.members).Nodup ∧ Field.id ∈ Table.names row.members)
    ⟨fun ⟨isObject, nodup, identified⟩ => { isObject, nodup, identified },
      fun h => ⟨h.isObject, h.nodup, h.identified⟩⟩

/-- A run as it may be stored: an object with an identifier, whose names are apart and none of
which is a field of the join. -/
structure IsRun (run : Json) : Prop where
  isObject : run.isObject = true
  nodup : (Table.names run.members).Nodup
  identified : Field.id ∈ Table.names run.members
  plain : ∀ field ∈ [refField, hitsField, tableField], field ∉ Table.names run.members

instance (run : Json) : Decidable (IsRun run) :=
  decidable_of_iff
    (run.isObject = true ∧ (Table.names run.members).Nodup ∧ Field.id ∈ Table.names run.members
      ∧ ∀ field ∈ [refField, hitsField, tableField], field ∉ Table.names run.members)
    ⟨fun ⟨isObject, nodup, identified, plain⟩ => { isObject, nodup, identified, plain },
      fun h => ⟨h.isObject, h.nodup, h.identified, h.plain⟩⟩

theorem IsRun.isRecord (h : IsRun run) : IsRecord run := ⟨h.isObject, h.nodup, h.identified⟩

theorem IsRecord.eq_obj (h : IsRecord row) : row = .obj row.members := by
  cases row with
  | obj members => rfl
  | _ => cases h.isObject

theorem IsRun.eq_obj (h : IsRun run) : run = .obj run.members := h.isRecord.eq_obj

theorem IsRun.lookup_eq_none (h : IsRun run) {field : String}
    (hfield : field ∈ [refField, hitsField, tableField]) : run.members.lookup field = none :=
  Table.lookup_eq_none_iff.mpr (h.plain field hfield)

/-- A record keeps its identifier if no write begins with it. -/
theorem IsRecord.setAll (h : IsRecord row) {writes : List (String × Json)}
    (hwrites : ∀ path ∈ Table.names writes, (Path.segments path).head? ≠ some Field.id) :
    IsRecord (Document.setAll writes row)
      ∧ (Document.setAll writes row).members.lookup Field.id = row.members.lookup Field.id := by
  have hid : (Document.setAll writes row).members.lookup Field.id
      = row.members.lookup Field.id := Document.lookup_setAll_of_not_mem hwrites
  refine ⟨⟨?_, Document.nodup_names_setAll h.nodup writes, ?_⟩, hid⟩
  · obtain ⟨ms, hms⟩ := Document.setAll_isObject ⟨_, h.eq_obj⟩ writes
    rw [hms]
    rfl
  · rw [← Table.lookup_isSome_iff, hid, Table.lookup_isSome_iff]
    exact h.identified

theorem IsRun.setAll (h : IsRun run) {writes : List (String × Json)}
    (hwrites : ∀ path ∈ Table.names writes, ∀ name ∈ [Field.id, refField, hitsField, tableField],
      (Path.segments path).head? ≠ some name) : IsRun (Document.setAll writes run) := by
  obtain ⟨⟨isObject, nodup, identified⟩, -⟩ := h.isRecord.setAll fun path hpath =>
    hwrites path hpath _ List.mem_cons_self
  refine ⟨isObject, nodup, identified, fun field hfield => ?_⟩
  rw [← Table.lookup_eq_none_iff, Document.lookup_setAll_of_not_mem]
  · exact h.lookup_eq_none hfield
  · exact fun path hpath => hwrites path hpath _ (List.mem_cons_of_mem _ hfield)

def idOf (run : Json) : Json := Document.getOrNull Field.id run

/-- Whether the name of a reference or a series is one of some names. -/
def isNamed (names : List String) (doc : Json) : Bool :=
  ((doc.member? "name").bind Json.str?).any names.contains

/-- The references of a run to series of some names. -/
def wantedRefs (names : List String) (run : Json) : List Json :=
  match Document.getOrNull Field.metricRefs run with
  | .arr items => items.filter (isNamed names)
  | _ => []

/-- Whether a series is one of some names and has an identifier. -/
def isSeries (names : List String) (id series : Json) : Bool :=
  (series.member? Field.id).any (Json.equal · id) && isNamed names series

/-- The series that a reference refers to: the first of a wanted name with its identifier. A
reference without an identifier refers to none. -/
def resolve (names : List String) (foreign : List Json) (ref : Json) : Option Json :=
  match (ref.member? "id").getD .null with
  | .null => none
  | id => foreign.find? (isSeries names id)

/-- What the rows of a run refer to: one series or none for each wanted reference, and none for the
row of a run without wanted references. -/
def targets (names : List String) (foreign : List Json) (run : Json) : List (Option Json) :=
  match wantedRefs names run with
  | [] => [none]
  | refs => refs.map (resolve names foreign)

/-- The entry of a series in the table of a run: its own name, or the name that no column asks
for. -/
def entryOf (series : Option Json) : String × Json :=
  (((series.bind (Json.member? "name")).bind Json.str?).getD unmatchedName, series.getD .null)

/-- The table of a run's wanted series. -/
def table (names : List String) (foreign : List Json) (run : Json) : List (String × Json) :=
  Table.ofList ((targets names foreign run).map entryOf)

/-- A run with the table of its wanted series behind its other members. -/
def withTable (names : List String) (foreign : List Json) (run : Json) : Json :=
  .obj (run.members ++ [(tableField, .obj (table names foreign run))])

/-! ## The rows of a run -/

def seriesLookup (names : List String) (collection : String) : Lookup where
  collection
  localPath := refField ++ ".id"
  foreignPath := Field.id
  restriction := some ("name", names)
  target := hitsField

/-- The value that a run gets in place of its references, null if it has no list of them. -/
def refsValue (names : List String) (run : Json) : Json :=
  match Document.getOrNull Field.metricRefs run with
  | .arr items => .arr (Json.withMember "name" (names.map .str) items)
  | _ => .null

/-- The rows that a run becomes before rows are gathered. -/
def joinedRows (names : List String) (collection : String) (foreign : List Json) (run : Json) :
    List Json :=
  (unwindRow refField true (Document.set refField (refsValue names run) run)).map
    ((seriesLookup names collection).apply foreign)

theorem segments_refField : Path.segments refField = [refField] := by decide
theorem segments_hitsField : Path.segments hitsField = [hitsField] := by decide
theorem segments_tableField : Path.segments tableField = [tableField] := by decide
theorem segments_id : Path.segments Field.id = [Field.id] := by decide
theorem segments_refId : Path.segments (refField ++ ".id") = [refField, "id"] := by decide

theorem equal_str (value : Json) (text : String) :
    Json.equal value (.str text) = (value.str? == some text) := by
  cases value <;> rfl

/-- The objects with a member among some texts are those that are named so. -/
theorem withMember_texts (items : List Json) :
    Json.withMember "name" (names.map .str) items = items.filter (isNamed names) := by
  refine List.filter_congr fun item _ => ?_
  rw [isNamed]
  cases item.member? "name" with
  | none => rfl
  | some value =>
      rw [Option.any_some, Option.bind_some, List.any_map, Function.comp_def]
      simp only [equal_str]
      cases value.str? with
      | none => simp
      | some text => simp [List.any_beq]

theorem eval_refs : Expr.eval (.unary (.withMember "name" (names.map .str))
    (.field Field.metricRefs)) run = .ok (refsValue names run) := by
  rw [Expr.eval, Expr.eval, ok_bind, refsValue]
  cases Document.getOrNull Field.metricRefs run <;> rfl

/-- What the gathering computes: the first row, and an entry for each row. -/
def joinFields : List (String × Accumulator) :=
  [(runField, .first .root), (entriesField, .push entry)]

/-- The stages behind the gathering. -/
def closingStages : List Stage := [
  .replaceRoot (.merge [
    .field runField,
    .object [(tableField, .unary .toObject (.field entriesField))]]),
  .project (.drop (.ofList [refField, hitsField]))]

/-- Up to the gathering, each run is turned into its rows and nothing can fail. -/
theorem run_tableStages : Pipeline.run collections (tableStages names collection) runs
    = (groupRows (.field Field.id) joinFields
        (runs.flatMap (joinedRows names collection (collections collection)))
      >>= Pipeline.run collections closingStages) := by
  have hcompute : Stage.apply collections (.compute [(refField,
      .unary (.withMember "name" (names.map .str)) (.field Field.metricRefs))]) runs
      = .ok (runs.map fun run => Document.set refField (refsValue names run) run) :=
    mapM_ok fun run _ => by
      rw [computeFields, Expr.evalFields, eval_refs]
      rfl
  have hrows : (((runs.map fun run => Document.set refField (refsValue names run) run).flatMap
      (unwindRow refField true)).map
        ((seriesLookup names collection).apply (collections collection)))
      = runs.flatMap (joinedRows names collection (collections collection)) := by
    rw [List.flatMap_map, List.map_flatMap]
    rfl
  rw [tableStages, Pipeline.run_cons_ok hcompute, Pipeline.run_cons_ok rfl,
    Pipeline.run_cons_ok rfl, Pipeline.run_cons, ← hrows]
  rfl

/-! ## Rows of any document

Whatever stands among the runs, each of its rows is gathered under its identifier, and its entry can
be computed, since a lookup finds named series only. -/

theorem get?_id (doc : Json) : Document.get? Field.id doc = doc.member? Field.id :=
  Document.get?_eq_member? (by decide) (by decide) doc

theorem idOf_eq (doc : Json) : idOf doc = (doc.members.lookup Field.id).getD .null := by
  rw [idOf, Document.getOrNull, get?_id, Document.member?_eq_lookup]

theorem lookup_unwindRow {doc : Json} {name : String} (hobj : ∃ ms, doc = .obj ms)
    (hnodup : (Table.names doc.members).Nodup) (hname : name ≠ refField)
    (hrow : row ∈ unwindRow refField true doc) :
    row.members.lookup name = doc.members.lookup name := by
  obtain ⟨ms, rfl⟩ := hobj
  rw [unwindRow] at hrow
  split at hrow
  · rw [if_pos rfl, List.mem_singleton] at hrow
    rw [hrow, Document.remove_name_obj segments_refField]
    exact Table.lookup_erase_of_ne hnodup hname
  · obtain ⟨item, -, rfl⟩ := List.mem_map.mp hrow
    rw [Document.set, segments_refField, Document.lookup_setAt_of_ne hname]
  all_goals
    rw [List.mem_singleton.mp hrow]

theorem nodup_names_unwindRow {doc : Json} (hobj : ∃ ms, doc = .obj ms)
    (hnodup : (Table.names doc.members).Nodup) (hrow : row ∈ unwindRow refField true doc) :
    (Table.names row.members).Nodup := by
  obtain ⟨ms, rfl⟩ := hobj
  rw [unwindRow] at hrow
  split at hrow
  · rw [if_pos rfl, List.mem_singleton] at hrow
    rw [hrow, Document.remove_name_obj segments_refField]
    exact Table.nodup_names_erase hnodup
  · obtain ⟨item, -, rfl⟩ := List.mem_map.mp hrow
    exact Document.nodup_names_setAt hnodup (Path.segments_ne_nil _) item
  all_goals
    rwa [List.mem_singleton.mp hrow]

theorem unwindRow_ne_nil (path : String) (doc : Json) : unwindRow path true doc ≠ [] := by
  rw [unwindRow]
  split <;> simp_all

theorem joinedRows_ne_nil (run : Json) : joinedRows names collection foreign run ≠ [] := by
  rw [joinedRows, ne_eq, List.map_eq_nil_iff]
  exact unwindRow_ne_nil _ _

theorem nodup_names_joinedRows (hnodup : (Table.names run.members).Nodup)
    (hrow : row ∈ joinedRows names collection foreign run) :
    (Table.names row.members).Nodup := by
  obtain ⟨exploded, hexploded, rfl⟩ := List.mem_map.mp hrow
  refine Document.nodup_names_setAt ?_ (Path.segments_ne_nil _) _
  exact nodup_names_unwindRow (Document.set_isObject _ _ run)
    (Document.nodup_names_setAt hnodup (Path.segments_ne_nil _) _) hexploded

/-- The rows of a run differ from it in two helpers only. -/
theorem lookup_joinedRows {name : String} (hnodup : (Table.names run.members).Nodup)
    (href : name ≠ refField) (hhits : name ≠ hitsField)
    (hrow : row ∈ joinedRows names collection foreign run) :
    row.members.lookup name = run.members.lookup name := by
  obtain ⟨exploded, hexploded, rfl⟩ := List.mem_map.mp hrow
  have hset : ∀ {field : String} (value doc : Json), Path.segments field = [field] →
      name ≠ field → (Document.set field value doc).members.lookup name
        = doc.members.lookup name := by
    intro field value doc hsegments hne
    rw [Document.set, hsegments, Document.lookup_setAt_of_ne hne]
  have hnames : (Table.names (Document.set refField (refsValue names run) run).members).Nodup :=
    Document.nodup_names_setAt hnodup (Path.segments_ne_nil _) _
  calc ((seriesLookup names collection).apply foreign exploded).members.lookup name
    _ = exploded.members.lookup name := hset _ exploded segments_hitsField hhits
    _ = (Document.set refField (refsValue names run) run).members.lookup name :=
        lookup_unwindRow (Document.set_isObject _ _ run) hnames href hexploded
    _ = run.members.lookup name := hset _ run segments_refField href

theorem idOf_joinedRows (hnodup : (Table.names run.members).Nodup)
    (hrow : row ∈ joinedRows names collection foreign run) : idOf row = idOf run := by
  rw [idOf_eq, idOf_eq, lookup_joinedRows hnodup (by decide) (by decide) hrow]

theorem name_of_isSeries {id series : Json} (h : isSeries names id series = true) :
    ∃ name, series.member? "name" = some (.str name) ∧ name ∈ names := by
  rw [isSeries, Bool.and_eq_true, isNamed] at h
  obtain ⟨name, hname, hmem⟩ := (Option.any_eq_true _ _).mp h.2
  obtain ⟨value, hvalue, hstr⟩ := Option.bind_eq_some_iff.mp hname
  cases value with
  | str text =>
      cases hstr
      exact ⟨name, hvalue, List.contains_iff_mem.mp hmem⟩
  | _ => cases hstr

theorem accepts_seriesLookup : (seriesLookup names collection).accepts = isSeries names := by
  funext id series
  have hname : Document.get? "name" series = series.member? "name" :=
    Document.get?_eq_member? (by decide) (by decide) series
  rw [isSeries, isNamed, ← get?_id, ← hname]
  rfl

theorem head?_hits (row : Json) : ((seriesLookup names collection).hits foreign row).head?
    = match Document.getOrNull (refField ++ ".id") row with
      | .null => none
      | id => foreign.find? (isSeries names id) := by
  rw [Lookup.hits, accepts_seriesLookup,
    show (seriesLookup names collection).localPath = refField ++ ".id" from rfl]
  cases Document.getOrNull (refField ++ ".id") row <;> simp [List.head?_filter]

def entryJson (series : Option Json) : Json :=
  .obj [("k", .str (entryOf series).1), ("v", (entryOf series).2)]

theorem entry?_entryJson (series : Option Json) :
    Json.entry? (entryJson series) = .ok (entryOf series) := rfl

theorem eval_hit {found : List Json} (h : Document.get? hitsField row = some (.arr found)) :
    hit.eval row = .ok (found.head?.getD .null) := by
  rw [hit, Expr.eval, Expr.eval, ok_bind, Document.getOrNull, h]
  cases found <;> rfl

theorem eval_entry {found : List Json} (h : Document.get? hitsField row = some (.arr found))
    (hname : ∀ series, found.head? = some series →
      ∃ name, series.member? "name" = some (.str name)) :
    entry.eval row = .ok (entryJson found.head?) := by
  have hhit := eval_hit h
  have hk : Expr.eval (.ifNull (.member "name" hit) (.str unmatchedName)) row
      = .ok (.str (entryOf found.head?).1) := by
    rw [Expr.eval, Expr.member, Expr.eval, hhit, ok_bind, Unary.apply, ok_bind]
    cases hfound : found.head? with
    | none => rfl
    | some series =>
        obtain ⟨name, hseries⟩ := hname series hfound
        simp [entryOf, hseries, Json.isNull, Json.str?, pure, Except.pure]
  rw [entry, Expr.eval, Expr.evalFields, hk, ok_bind, Expr.evalFields, hhit, ok_bind]
  rfl

/-- What a row refers to: the first of the series that were found for it. -/
def targetOf (row : Json) : Option Json :=
  match Document.get? hitsField row with
  | some (.arr found) => found.head?
  | _ => none

/-- A row of a run has a list of what was found for it, and the first of these is a series that a
search by identifier and name finds. -/
theorem get?_hits_joinedRows (hrow : row ∈ joinedRows names collection foreign run) :
    ∃ found, Document.get? hitsField row = some (.arr found)
      ∧ ∀ series, found.head? = some series →
        ∃ id, foreign.find? (isSeries names id) = some series := by
  obtain ⟨exploded, -, rfl⟩ := List.mem_map.mp hrow
  refine ⟨_, Document.get?_set hitsField _ exploded, fun series hseries => ?_⟩
  rw [head?_hits] at hseries
  split at hseries
  · cases hseries
  · exact ⟨_, hseries⟩

theorem eval_entry_joinedRows (hrow : row ∈ joinedRows names collection foreign run) :
    entry.eval row = .ok (entryJson (targetOf row)) := by
  obtain ⟨found, hfound, hhead⟩ := get?_hits_joinedRows hrow
  rw [targetOf, hfound]
  refine eval_entry hfound fun series hseries => ?_
  obtain ⟨id, hfind⟩ := hhead series hseries
  exact (name_of_isSeries (List.find?_some hfind)).imp fun _ => And.left

/-- What a row refers to is among the foreign documents. -/
theorem mem_of_targetOf {series : Json} (hrow : row ∈ joinedRows names collection foreign run)
    (h : targetOf row = some series) : series ∈ foreign := by
  obtain ⟨found, hfound, hhead⟩ := get?_hits_joinedRows hrow
  rw [targetOf, hfound] at h
  obtain ⟨id, hfind⟩ := hhead series h
  exact List.mem_of_find?_eq_some hfind

/-- The cells of a group: its first row, and the entries of all its rows. -/
theorem groupCells_joinFields {rows : List Json} {first : Json} (hhead : rows.head? = some first)
    (heval : ∀ row ∈ rows, entry.eval row = .ok (entryJson (targetOf row))) :
    groupCells joinFields rows = .ok [first, .arr ((rows.map targetOf).map entryJson)] := by
  have hentries : (Accumulator.push entry).Holds first rows
      (.arr ((rows.map targetOf).map entryJson)) :=
    ⟨_, mapM_ok heval, by rw [List.map_map]; rfl⟩
  exact (groupCells_eq_ok hhead).mpr (.cons rfl (.cons hentries .nil))

/-- The cells of the group of a run. -/
theorem groupCells_joinedRows (names : List String) (collection : String) (foreign : List Json)
    (run : Json) : ∃ first, (joinedRows names collection foreign run).head? = some first
      ∧ groupCells joinFields (joinedRows names collection foreign run)
        = .ok [first, .arr (((joinedRows names collection foreign run).map targetOf).map
          entryJson)] := by
  have hne : joinedRows names collection foreign run ≠ [] := joinedRows_ne_nil run
  obtain ⟨first, hhead⟩ := Option.ne_none_iff_exists'.mp (mt List.head?_eq_none_iff.mp hne)
  exact ⟨first, hhead, groupCells_joinFields hhead fun _ => eval_entry_joinedRows⟩

/-! ## Putting a run together again -/

def rootExpr : Expr :=
  .merge [.field runField, .object [(tableField, .unary .toObject (.field entriesField))]]

theorem eval_table {group : Json} {ts : List (Option Json)}
    (h : Document.get? entriesField group = some (.arr (ts.map entryJson))) :
    Expr.eval (.object [(tableField, .unary .toObject (.field entriesField))]) group
      = .ok (.obj [(tableField, .obj (Table.ofList (ts.map entryOf)))]) := by
  have hentries : (ts.map entryJson).mapM Json.entry? = .ok (ts.map entryOf) := by
    rw [mapM_eq_ok, List.forall₂_map_left_iff, List.forall₂_map_right_iff, List.forall₂_same]
    exact fun target _ => entry?_entryJson target
  rw [Expr.eval, Expr.evalFields, Expr.eval, Expr.eval, Document.getOrNull, h, ok_bind,
    Option.getD_some, Unary.apply, hentries]
  rfl

/-- A group is replaced by the row that is kept in it, with the table of all entries. -/
theorem replaceRow_group {group : Json} {members : List (String × Json)}
    {ts : List (Option Json)} (hnodup : (Table.names members).Nodup)
    (hrun : Document.get? runField group = some (.obj members))
    (hentries : Document.get? entriesField group = some (.arr (ts.map entryJson))) :
    replaceRow rootExpr group
      = .ok (.obj (Table.put tableField (.obj (Table.ofList (ts.map entryOf))) members)) := by
  have hmembers : Table.putAll [] members = members := Table.ofList_eq_self hnodup
  rw [replaceRow, rootExpr, Expr.eval, Expr.evalMerge, Expr.eval, Document.getOrNull, hrun, ok_bind]
  simp only [Option.getD_some, Expr.evalMerge, eval_table hentries, ok_bind, hmembers]
  rfl

/-- The row that the rows of a run are gathered into: the first of them with the table of what they
refer to, less the helpers. -/
def tabledRow (names : List String) (collection : String) (foreign : List Json) (run : Json) :
    Json :=
  let rows := joinedRows names collection foreign run
  (Projection.drop (.ofList [refField, hitsField])).apply
    (.obj (Table.put tableField (.obj (Table.ofList ((rows.map targetOf).map entryOf)))
      (rows.head?.elim [] Json.members)))

theorem joinedRows_isObject (hrow : row ∈ joinedRows names collection foreign run) :
    ∃ ms, row = .obj ms := by
  obtain ⟨exploded, -, rfl⟩ := List.mem_map.mp hrow
  exact Document.set_isObject _ _ exploded

/-- What a group of the rows of one run is turned back into. -/
theorem restore_group (hnodup : (Table.names run.members).Nodup) {rows : List Json} {text : String}
    {group : Json} (hrows : rowsOf idOf text rows = joinedRows names collection foreign run)
    (hgroup : IsGroup joinFields idOf rows text group) :
    ∃ restored, replaceRow rootExpr group = .ok restored
      ∧ (Projection.drop (.ofList [refField, hitsField])).apply restored
        = tabledRow names collection foreign run := by
  obtain ⟨-, cells, -, hcells, rfl⟩ := hgroup
  obtain ⟨first, hhead, hjoined⟩ := groupCells_joinedRows names collection foreign run
  rw [hrows, hjoined] at hcells
  cases hcells
  have hfirst : first ∈ joinedRows names collection foreign run := List.mem_of_head? hhead
  obtain ⟨ms, rfl⟩ := joinedRows_isObject hfirst
  refine ⟨_, replaceRow_group (nodup_names_joinedRows hnodup hfirst) rfl rfl, ?_⟩
  rw [tabledRow, hhead]
  rfl

theorem drop_helpers (doc : Json) : (Projection.drop (.ofList [refField, hitsField])).apply doc
    = Document.remove refField (Document.remove hitsField doc) := by
  have hpaths : (Projection.drop (.ofList [refField, hitsField])).paths.names
      = [hitsField, refField] := by decide
  rw [Projection.apply, hpaths]
  rfl

/-- The table of a row stays when the helpers are dropped. -/
theorem getOrNull_drop_helpers {members : List (String × Json)}
    (hnodup : (Table.names members).Nodup) (table : Json) :
    Document.getOrNull tableField ((Projection.drop (.ofList [refField, hitsField])).apply
      (.obj (Table.put tableField table members))) = table := by
  have hput : (Table.names (Table.put tableField table members)).Nodup :=
    Table.nodup_names_put hnodup
  rw [drop_helpers, Document.remove_name_obj segments_hitsField,
    Document.remove_name_obj segments_refField, Document.getOrNull,
    Document.get?_name_obj segments_tableField,
    Table.lookup_erase_of_ne (Table.nodup_names_erase hput) (by decide),
    Table.lookup_erase_of_ne hput (by decide), Table.lookup_put_self]
  rfl

/-- A tabled row has its names apart and differs from the run in the fields of the join only. -/
theorem lookup_tabledRow (hnodup : (Table.names run.members).Nodup) :
    (∃ members, tabledRow names collection foreign run = .obj members)
      ∧ (Table.names (tabledRow names collection foreign run).members).Nodup
      ∧ ∀ name ∉ [refField, hitsField, tableField],
        (tabledRow names collection foreign run).members.lookup name
          = run.members.lookup name := by
  obtain ⟨first, hhead, -⟩ := groupCells_joinedRows names collection foreign run
  have hfirst : first ∈ joinedRows names collection foreign run := List.mem_of_head? hhead
  have hnames := nodup_names_joinedRows hnodup hfirst
  rw [tabledRow, hhead, Option.elim_some, drop_helpers,
    Document.remove_name_obj segments_hitsField, Document.remove_name_obj segments_refField]
  have hput : ∀ table : Json, (Table.names (Table.put tableField table first.members)).Nodup :=
    fun _ => Table.nodup_names_put hnames
  have herase : ∀ table : Json,
      (Table.names (Table.erase hitsField (Table.put tableField table first.members))).Nodup :=
    fun table => Table.nodup_names_erase (hput table)
  refine ⟨⟨_, rfl⟩, Table.nodup_names_erase (herase _), fun name hname => ?_⟩
  simp only [List.mem_cons, List.not_mem_nil, or_false, not_or] at hname
  obtain ⟨href, hhits, htable⟩ := hname
  rw [Json.members, Table.lookup_erase_of_ne (herase _) href,
    Table.lookup_erase_of_ne (hput _) hhits, Table.lookup_put_of_ne htable]
  exact lookup_joinedRows hnodup href hhits hfirst

/-- A row depends on the foreign documents only through what is found among them. -/
theorem tabledRow_congr {others : List Json}
    (h : ∀ row, (seriesLookup names collection).hits foreign row
      = (seriesLookup names collection).hits others row) :
    tabledRow names collection foreign run = tabledRow names collection others run := by
  have happly : (seriesLookup names collection).apply foreign
      = (seriesLookup names collection).apply others :=
    funext fun row => by rw [Lookup.apply, Lookup.apply, h]
  rw [tabledRow, tabledRow, joinedRows, joinedRows, happly]

/-! ## What the rows of a document refer to

Whatever a document holds under the names of the helpers is overwritten before it is read, so its
rows refer to what its references refer to. -/

theorem mem_wantedRefs {ref : Json} (h : ref ∈ wantedRefs names run) :
    ∃ members, ref = .obj members := by
  rw [wantedRefs] at h
  split at h
  · obtain ⟨-, hname⟩ := List.mem_filter.mp h
    cases ref with
    | obj members => exact ⟨members, rfl⟩
    | _ => cases hname
  · cases h

theorem targetOf_apply (row : Json) :
    targetOf ((seriesLookup names collection).apply foreign row)
      = match Document.getOrNull (refField ++ ".id") row with
        | .null => none
        | id => foreign.find? (isSeries names id) := by
  rw [targetOf, Lookup.apply, show (seriesLookup names collection).target = hitsField from rfl,
    Document.get?_set]
  exact head?_hits row

theorem targetOf_apply_set {ref : Json} (hobj : ref = .null ∨ ∃ members, ref = .obj members)
    (doc : Json) :
    targetOf ((seriesLookup names collection).apply foreign (Document.set refField ref doc))
      = resolve names foreign ref := by
  have hread : Document.get? (refField ++ ".id") (Document.set refField ref doc)
      = Document.getAt? ["id"] ref := by
    rw [Document.get?, segments_refId, Document.set, segments_refField, Document.setAt_cons,
      Document.getAt?_obj, Table.lookup_put_self]
    rfl
  have hid : Document.getOrNull (refField ++ ".id") (Document.set refField ref doc)
      = (ref.member? "id").getD .null := by
    rw [Document.getOrNull, hread]
    obtain rfl | ⟨members, rfl⟩ := hobj
    · rfl
    · exact congrArg (Option.getD · Json.null) (Document.getAt?_single "id" (.obj members))
  rw [targetOf_apply, hid]
  rfl

/-- A row without a reference refers to nothing. -/
theorem targetOf_apply_remove (hnodup : (Table.names run.members).Nodup) (refs : Json) :
    targetOf ((seriesLookup names collection).apply foreign
      (Document.remove refField (Document.set refField refs run))) = none := by
  have hset : Document.set refField refs run = .obj (Table.put refField refs run.members) := by
    rw [Document.set, segments_refField]
    rfl
  have hread : Document.get? (refField ++ ".id")
      (Document.remove refField (Document.set refField refs run)) = none := by
    rw [hset, Document.remove_name_obj segments_refField, Document.get?, segments_refId,
      Document.getAt?_obj, Table.lookup_erase_self (Table.nodup_names_put hnodup)]
    rfl
  rw [targetOf_apply, Document.getOrNull, hread]
  rfl

/-- A document becomes one row for each wanted reference, or one that refers to nothing. -/
theorem map_targetOf_joinedRows (hnodup : (Table.names run.members).Nodup) :
    (joinedRows names collection foreign run).map targetOf = targets names foreign run := by
  have hget : ∀ refs : Json, Document.get? refField (Document.set refField refs run) = some refs :=
    fun refs => Document.get?_set refField refs run
  have hnull : wantedRefs names run = [] → refsValue names run = .null →
      (joinedRows names collection foreign run).map targetOf = targets names foreign run := by
    intro hrefs hvalue
    rw [targets, hrefs, joinedRows, hvalue, unwindRow, hget]
    exact congrArg (List.cons · []) (targetOf_apply_set (.inl rfl) run)
  cases hrefs : Document.getOrNull Field.metricRefs run with
  | arr items =>
      -- the narrowed list is unwound: an empty one leaves a bare row, any other a row for each item
      have hvalue : refsValue names run = .arr (wantedRefs names run) := by
        simp only [refsValue, wantedRefs, hrefs, withMember_texts]
      rw [joinedRows, hvalue, unwindRow, hget]
      cases hwanted : wantedRefs names run with
      | nil =>
          rw [targets, hwanted]
          exact congrArg (List.cons · []) (targetOf_apply_remove hnodup _)
      | cons ref refs =>
          rw [targets, hwanted]
          simp only [List.map_map]
          rw [← hwanted]
          refine List.map_congr_left fun ref hmem => ?_
          exact targetOf_apply_set (.inr (mem_wantedRefs hmem)) _
  | _ => exact hnull (by rw [wantedRefs, hrefs]) (by rw [refsValue, hrefs])

/-! ## Rows of a run

For a run without fields of the join the rows can be written down. -/

variable {ms : List (String × Json)}

/-- A row of a run: the members of the run, then nothing or a reference, then what was found for
it. -/
def IsRowOf (run row : Json) : Prop :=
  ∃ extra found, (extra = [] ∨ ∃ ref, extra = [(refField, ref)])
    ∧ row = .obj (run.members ++ extra ++ [(hitsField, found)])

theorem lookup_isRowOf {extra : List (String × Json)} {name : String}
    (hextra : extra = [] ∨ ∃ ref, extra = [(refField, ref)]) (hne : name ≠ refField)
    (h : ms.lookup name = none) : (ms ++ extra).lookup name = none := by
  obtain rfl | ⟨ref, rfl⟩ := hextra
  · rwa [List.append_nil]
  · rwa [Table.lookup_append_of_ne hne]

/-- The lookup puts what it finds behind everything else. -/
theorem apply_seriesLookup (h : ms.lookup hitsField = none) :
    (seriesLookup names collection).apply foreign (.obj ms)
      = .obj (ms ++ [(hitsField,
        .arr ((seriesLookup names collection).hits foreign (.obj ms)))]) := by
  rw [Lookup.apply, show (seriesLookup names collection).target = hitsField from rfl,
    Document.set_name_obj segments_hitsField,
    Table.put_of_not_mem (Table.lookup_eq_none_iff.mp h)]

theorem isRowOf_joinedRows (h : IsRun run)
    (hrow : row ∈ joinedRows names collection foreign run) : IsRowOf run row := by
  have hnot : refField ∉ Table.names run.members := h.plain _ (by simp)
  have hset : ∀ refs, Document.set refField refs run = .obj (run.members ++ [(refField, refs)]) :=
    fun refs => by
      rw [← Table.put_of_not_mem hnot, ← Document.set_name_obj segments_refField, ← h.eq_obj]
  obtain ⟨exploded, hexploded, rfl⟩ := List.mem_map.mp hrow
  obtain ⟨extra, hextra, rfl⟩ : ∃ extra, (extra = [] ∨ ∃ ref, extra = [(refField, ref)])
      ∧ exploded = .obj (run.members ++ extra) := by
    rw [hset, unwindRow] at hexploded
    split at hexploded
    · rw [if_pos rfl, List.mem_singleton] at hexploded
      refine ⟨[], .inl rfl, ?_⟩
      rw [hexploded, Document.remove_name_obj segments_refField, Table.erase_append hnot]
      rfl
    · obtain ⟨item, -, rfl⟩ := List.mem_map.mp hexploded
      refine ⟨_, .inr ⟨item, rfl⟩, ?_⟩
      rw [Document.set_name_obj segments_refField, Table.put_append_self hnot]
    all_goals
      rw [List.mem_singleton.mp hexploded]
      exact ⟨_, .inr ⟨_, rfl⟩, rfl⟩
  refine ⟨extra, _, hextra, apply_seriesLookup ?_⟩
  exact lookup_isRowOf hextra (by decide) (h.lookup_eq_none (by simp))

/-! ## Gathering the rows of a run -/

/-- What a row refers to is a series that was found for a reference. -/
theorem find_of_mem_targets {series : Json} (h : some series ∈ targets names foreign run) :
    ∃ id, foreign.find? (isSeries names id) = some series := by
  rw [targets] at h
  split at h
  · cases List.mem_singleton.mp h
  · obtain ⟨ref, -, href⟩ := List.mem_map.mp h
    rw [resolve] at href
    split at href
    · cases href
    · exact ⟨_, href⟩

theorem name_of_mem_targets {target : Option Json} {series : Json}
    (h : target ∈ targets names foreign run) (htarget : target = some series) :
    ∃ name, series.member? "name" = some (.str name) ∧ name ∈ names := by
  subst htarget
  obtain ⟨id, hfind⟩ := find_of_mem_targets h
  exact name_of_isSeries (List.find?_some hfind)

/-! ## What becomes of a run -/

/-- The helpers stand behind the members of the run, so their removal moves none of these. -/
theorem drop_helpers_row {extra : List (String × Json)} {found value : Json}
    (hextra : extra = [] ∨ ∃ ref, extra = [(refField, ref)])
    (href : ms.lookup refField = none) (hhits : ms.lookup hitsField = none) :
    (Projection.drop (.ofList [refField, hitsField])).apply
        (.obj (ms ++ extra ++ [(hitsField, found)] ++ [(tableField, value)]))
      = .obj (ms ++ [(tableField, value)]) := by
  have hfront : hitsField ∉ Table.names (ms ++ extra) :=
    Table.lookup_eq_none_iff.mp (lookup_isRowOf hextra (by decide) hhits)
  have hhelper : Table.erase hitsField [(hitsField, found), (tableField, value)]
      = [(tableField, value)] := rfl
  rw [drop_helpers, Document.remove_name_obj segments_hitsField, List.append_assoc (ms ++ extra),
    List.singleton_append, Table.erase_append hfront, hhelper,
    Document.remove_name_obj segments_refField, List.append_assoc,
    Table.erase_append (Table.lookup_eq_none_iff.mp href)]
  obtain rfl | ⟨ref, rfl⟩ := hextra <;> rfl

/-- The rows of a run are gathered into the run itself with its table. -/
theorem tabledRow_eq (h : IsRun run) :
    tabledRow names collection foreign run = withTable names foreign run := by
  have hne : joinedRows names collection foreign run ≠ [] := joinedRows_ne_nil run
  obtain ⟨first, hhead⟩ := Option.ne_none_iff_exists'.mp (mt List.head?_eq_none_iff.mp hne)
  obtain ⟨extra, found, hextra, rfl⟩ := isRowOf_joinedRows h (List.mem_of_head? hhead)
  have href : run.members.lookup refField = none := h.lookup_eq_none (by simp)
  have hhits : run.members.lookup hitsField = none := h.lookup_eq_none (by simp)
  have htable : (run.members ++ extra ++ [(hitsField, found)]).lookup tableField = none := by
    rw [Table.lookup_append_of_ne (by decide)]
    exact lookup_isRowOf hextra (by decide) (h.lookup_eq_none (by simp))
  rw [tabledRow, map_targetOf_joinedRows h.nodup, hhead, Option.elim_some, Json.members,
    Table.put_of_not_mem (Table.lookup_eq_none_iff.mp htable)]
  exact drop_helpers_row hextra href hhits

/-- Whatever a document holds under the name of the table, its row has the table of its series. -/
theorem getOrNull_tabledRow (hnodup : (Table.names run.members).Nodup) :
    Document.getOrNull tableField (tabledRow names collection foreign run)
      = .obj (table names foreign run) := by
  obtain ⟨first, hhead, -⟩ := groupCells_joinedRows names collection foreign run
  rw [tabledRow, map_targetOf_joinedRows hnodup, hhead]
  exact getOrNull_drop_helpers (nodup_names_joinedRows hnodup (List.mem_of_head? hhead)) _

/-! ## The whole block -/

theorem run_closingStages {groups : List Json} : Pipeline.run collections closingStages groups
    = ((groups.mapM (replaceRow rootExpr)) >>= fun rows =>
      .ok (rows.map (Projection.drop (.ofList [refField, hitsField])).apply)) := by
  rw [closingStages, Pipeline.run_cons]
  rfl

theorem rowsOf_joinedRows (h : ∀ run ∈ runs, (Table.names run.members).Nodup) (text : String) :
    rowsOf idOf text (runs.flatMap (joinedRows names collection foreign))
      = (rowsOf idOf text runs).flatMap (joinedRows names collection foreign) :=
  rowsOf_flatMap fun run hrun row hrow => by rw [idOf_joinedRows (h run hrun) hrow]

theorem keyTexts_joinedRows (h : ∀ run ∈ runs, (Table.names run.members).Nodup) :
    keyTexts idOf (runs.flatMap (joinedRows names collection foreign)) = keyTexts idOf runs :=
  keyTexts_flatMap (fun run _ => joinedRows_ne_nil run) fun run hrun row hrow => by
    rw [idOf_joinedRows (h run hrun) hrow]

theorem groupRows_joinedRows (names : List String) (collection : String) (foreign : List Json)
    (runs : List Json) : ∃ groups, groupRows (.field Field.id) joinFields
      (runs.flatMap (joinedRows names collection foreign)) = .ok groups := by
  refine groupRows_ok (k := idOf) (fun row _ => rfl) fun row hrow field hfield => ?_
  obtain ⟨run, -, hrun⟩ := List.mem_flatMap.mp hrow
  rcases List.mem_cons.mp hfield with rfl | hfield
  · exact ⟨_, rfl⟩
  · cases List.mem_singleton.mp hfield
    exact ⟨_, eval_entry_joinedRows hrun⟩

/-- Documents with identifiers of their own are tabled one by one. -/
theorem run_tableStages_tabledRow (hnodup : ∀ run ∈ runs, (Table.names run.members).Nodup)
    (hids : (runs.map fun run => (idOf run).text).Nodup) :
    Pipeline.run collections (tableStages names collection) runs
      = .ok (runs.map (tabledRow names collection (collections collection))) := by
  obtain ⟨groups, hgroups⟩ :=
    groupRows_joinedRows names collection (collections collection) runs
  have hdescribed := isGroup_groupRows (k := idOf) (fun row _ => rfl) hgroups
  rw [keyTexts_joinedRows hnodup, keyTexts_of_nodup hids, List.forall₂_map_left_iff] at hdescribed
  have hrestore : List.Forall₂ (fun run group => ∃ restored,
      replaceRow rootExpr group = .ok restored
        ∧ (Projection.drop (.ofList [refField, hitsField])).apply restored
          = tabledRow names collection (collections collection) run) runs groups := by
    refine forall₂_imp_of_mem hdescribed fun run hrun group hgroup => ?_
    -- a group has the rows of its identifier, and these are the rows of one run
    have hrows : rowsOf idOf (idOf run).text
        (runs.flatMap (joinedRows names collection (collections collection)))
          = joinedRows names collection (collections collection) run := by
      rw [rowsOf_joinedRows hnodup, rowsOf_of_nodup hids hrun, List.flatMap_singleton]
    exact restore_group (hnodup run hrun) hrows hgroup
  obtain ⟨restored, hrestored, hdropped⟩ := mapM_of_forall₂ hrestore
  rw [run_tableStages, hgroups, ok_bind, run_closingStages, hrestored, ok_bind, hdropped]

/-- Runs with identifiers of their own get their tables, and nothing else happens to them. -/
theorem run_tableStages_eq (h : ∀ run ∈ runs, IsRun run)
    (hids : (runs.map fun run => (idOf run).text).Nodup) :
    Pipeline.run collections (tableStages names collection) runs
      = .ok (runs.map (withTable names (collections collection))) := by
  rw [run_tableStages_tabledRow (fun run hrun => (h run hrun).nodup) hids]
  exact congrArg Except.ok (List.map_congr_left fun run hrun => tabledRow_eq (h run hrun))

/-- The table of series is written like any other column. -/
theorem withTable_eq_set (h : IsRun run) : withTable names foreign run
    = Document.set tableField (.obj (table names foreign run)) run := by
  have hput : Table.put tableField (.obj (table names foreign run)) run.members
      = run.members ++ [(tableField, .obj (table names foreign run))] :=
    Table.put_of_not_mem (h.plain _ (by simp)) _
  rw [withTable, ← hput, ← Document.set_name_obj segments_tableField, ← h.eq_obj]

theorem sameAt_withTable {q : List String} (h : IsRun run)
    (hq : Path.Apart (Path.segments tableField) q) :
    Document.SameAt q (withTable names foreign run) run := by
  rw [withTable_eq_set h]
  refine Document.sameAt_setAt ?_ hq _
  rw [segments_tableField, h.eq_obj]
  exact Document.clear_single _

def columnFields (columns : List MetricColumn) : List (String × Expr) :=
  columns.map fun column => (column.name, columnExpr column)

theorem names_columnFields {cells : List (String × Json)}
    (h : Expr.evalFields (columnFields columns) row = .ok cells) :
    Table.names cells = columns.map (·.name) := by
  rw [names_evalFields h, columnFields, List.map_map]
  rfl

/-- The row that a join makes of a run. -/
def joinRow (columns : List MetricColumn) (foreign : List Json) (run : Json) :
    Except EvalError Json :=
  computeFields (columnFields columns) (withTable (seriesNames columns).names foreign run)

/-- The row that a join makes of any document. -/
def joinedRow (columns : List MetricColumn) (collection : String) (foreign : List Json)
    (run : Json) : Except EvalError Json :=
  computeFields (columnFields columns)
    (tabledRow (seriesNames columns).names collection foreign run)

theorem joinedRow_eq (h : IsRun run) :
    joinedRow columns collection foreign run = joinRow columns foreign run := by
  rw [joinedRow, joinRow, tabledRow_eq h]

/-- A join changes no member but its helpers and those that its columns begin with. -/
theorem lookup_of_joinedRow {name : String} (hnodup : (Table.names run.members).Nodup)
    (hname : name ∉ [refField, hitsField, tableField])
    (hcolumns : ∀ column ∈ columns, (Path.segments column.name).head? ≠ some name)
    (hrow : joinedRow columns collection foreign run = .ok row) :
    row.isObject = true ∧ (Table.names row.members).Nodup
      ∧ row.members.lookup name = run.members.lookup name := by
  obtain ⟨cells, hcells, rfl⟩ := computeFields_eq_ok.mp hrow
  obtain ⟨hobject, htabled, hlookup⟩ : _ ∧ (Table.names
      (tabledRow (seriesNames columns).names collection foreign run).members).Nodup ∧ _ :=
    lookup_tabledRow hnodup
  obtain ⟨ms, hms⟩ := Document.setAll_isObject hobject cells
  refine ⟨by rw [hms]; rfl, Document.nodup_names_setAll htabled cells, ?_⟩
  rw [Document.lookup_setAll_of_not_mem, hlookup name hname]
  intro path hpath
  rw [names_columnFields hcells] at hpath
  obtain ⟨column, hcolumn, rfl⟩ := List.mem_map.mp hpath
  exact hcolumns column hcolumn

/-- A join keeps the identifier of a record if no column begins with it. -/
theorem IsRecord.joinedRow (h : IsRecord run)
    (hcolumns : ∀ column ∈ columns, (Path.segments column.name).head? ≠ some Field.id)
    (hrow : joinedRow columns collection foreign run = .ok row) :
    IsRecord row ∧ row.members.lookup Field.id = run.members.lookup Field.id := by
  obtain ⟨hobject, hnodup, hid⟩ := lookup_of_joinedRow h.nodup (by decide) hcolumns hrow
  refine ⟨⟨hobject, hnodup, ?_⟩, hid⟩
  rw [← Table.lookup_isSome_iff, hid, Table.lookup_isSome_iff]
  exact h.identified

/-- Documents with identifiers of their own go through a join one by one. -/
theorem run_stages_joinedRow (hnodup : ∀ run ∈ runs, (Table.names run.members).Nodup)
    (hids : (runs.map fun run => (idOf run).text).Nodup) :
    Pipeline.run collections (stages columns collection) runs
      = runs.mapM (joinedRow columns collection (collections collection)) := by
  rw [stages, Pipeline.run_append, run_tableStages_tabledRow hnodup hids, ok_bind,
    Pipeline.run_single, show columnStage columns = .compute (columnFields columns) from rfl,
    Stage.apply, List.mapM_map]
  rfl

theorem run_stages (h : ∀ run ∈ runs, IsRun run)
    (hids : (runs.map fun run => (idOf run).text).Nodup) :
    Pipeline.run collections (stages columns collection) runs
      = runs.mapM (joinRow columns (collections collection)) := by
  rw [run_stages_joinedRow (fun run hrun => (h run hrun).nodup) hids]
  exact mapM_congr fun run hrun => joinedRow_eq (h run hrun)

/-- A document that shares its identifier with no other gets its own table, whatever the others are.
It stands behind the rows of the identifiers before it. -/
theorem tabledRow_of_tableStages {before after tabled : List Json}
    (hnodup : ∀ r ∈ before ++ run :: after, (Table.names r.members).Nodup)
    (hids : ∀ other ∈ before ++ after, (idOf other).text ≠ (idOf run).text)
    (htabled : Pipeline.run collections (tableStages names collection) (before ++ run :: after)
      = .ok tabled) :
    tabled[(keyTexts idOf before).length]?
      = some (tabledRow names collection (collections collection) run) := by
  rw [run_tableStages] at htabled
  obtain ⟨groups, hgroups, hclosing⟩ := bind_eq_ok.mp htabled
  rw [run_closingStages] at hclosing
  obtain ⟨restored, hrestored, hret⟩ := bind_eq_ok.mp hclosing
  cases hret
  -- the place of the run is that of its text among the key texts
  have htexts : (keyTexts idOf ((before ++ run :: after).flatMap
      (joinedRows names collection (collections collection))))[
        (keyTexts idOf before).length]? = some (idOf run).text := by
    rw [keyTexts_joinedRows hnodup]
    exact keyTexts_getElem? fun r hr => hids r (List.mem_append_left _ hr)
  obtain ⟨group, hgroup, hisGroup⟩ :=
    getElem?_of_forall₂ (isGroup_groupRows (k := idOf) (fun row _ => rfl) hgroups) htexts
  -- and the rows of its text are its own, so the group is restored to the run
  have hjoined : rowsOf idOf (idOf run).text ((before ++ run :: after).flatMap
      (joinedRows names collection (collections collection)))
        = joinedRows names collection (collections collection) run := by
    rw [rowsOf_joinedRows hnodup, rowsOf_eq_single fun r hr => hids r hr,
      List.flatMap_singleton]
  obtain ⟨root, hroot, hdropped⟩ :=
    restore_group (hnodup run (List.mem_append_right _ List.mem_cons_self)) hjoined hisGroup
  obtain ⟨root', hroot', heval⟩ := getElem?_of_forall₂ (mapM_eq_ok.mp hrestored) hgroup
  rw [hroot] at heval
  cases heval
  rw [List.getElem?_map, hroot', Option.map_some, hdropped]

/-- So it goes through the join on its own. -/
theorem joinedRow_of_stages {before after rows : List Json}
    (hnodup : ∀ r ∈ before ++ run :: after, (Table.names r.members).Nodup)
    (hids : ∀ other ∈ before ++ after, (idOf other).text ≠ (idOf run).text)
    (hrows : Pipeline.run collections (stages columns collection) (before ++ run :: after)
      = .ok rows) :
    ∃ row, rows[(keyTexts idOf before).length]? = some row
      ∧ joinedRow columns collection (collections collection) run = .ok row := by
  rw [stages, Pipeline.run_append_eq_ok] at hrows
  obtain ⟨tabled, htabled, hcolumns⟩ := hrows
  rw [Pipeline.run_single] at hcolumns
  exact getElem?_of_forall₂ (mapM_eq_ok.mp hcolumns)
    (tabledRow_of_tableStages hnodup hids htabled)

theorem row_of_stages {before after rows : List Json} (h : IsRun run)
    (hothers : ∀ other ∈ before ++ after,
      (Table.names other.members).Nodup ∧ (idOf other).text ≠ (idOf run).text)
    (hrows : Pipeline.run collections (stages columns collection) (before ++ run :: after)
      = .ok rows) :
    ∃ row, rows[(keyTexts idOf before).length]? = some row
      ∧ joinRow columns (collections collection) run = .ok row := by
  have hnodup : ∀ r ∈ before ++ run :: after, (Table.names r.members).Nodup := by
    intro r hr
    rcases List.mem_append.mp hr with hr | hr
    · exact (hothers r (List.mem_append_left _ hr)).1
    · rcases List.mem_cons.mp hr with rfl | hr
      · exact h.nodup
      · exact (hothers r (List.mem_append_right _ hr)).1
  rw [← joinedRow_eq h]
  exact joinedRow_of_stages hnodup (fun other hother => (hothers other hother).2) hrows

/-- What a join leaves of a run under the names that no column begins with. -/
theorem member?_joinRow {name : String} (hname : name ≠ tableField)
    (hcolumns : ∀ column ∈ columns, (Path.segments column.name).head? ≠ some name)
    (hrow : joinRow columns foreign run = .ok row) : row.member? name = run.member? name := by
  obtain ⟨cells, hcells, rfl⟩ := computeFields_eq_ok.mp hrow
  rw [Document.member?_eq_lookup, Document.member?_eq_lookup, Document.lookup_setAll_of_not_mem]
  · exact Table.lookup_append_of_ne hname run.members _
  · rw [names_columnFields hcells]
    intro path hpath
    obtain ⟨column, hcolumn, rfl⟩ := List.mem_map.mp hpath
    exact hcolumns column hcolumn

/-- The metric join conserves runs. The stages before the columns are computed never fail, and if
the columns can be computed, there is one row for each run, in order: the run with the table of its
series behind its members and each column written under its name. Under every other name it holds
what the run holds, so of the fields of the join only the table is left. -/
theorem join_conserves_runs (collections : Collections) (collection : String)
    (columns : List MetricColumn) {runs : List Json} (hruns : ∀ run ∈ runs, IsRun run)
    (hids : (runs.map fun run => (idOf run).text).Nodup) :
    (∃ rows, Pipeline.run collections (tableStages (seriesNames columns).names collection) runs
      = .ok rows)
    ∧ ∀ rows, Pipeline.run collections (stages columns collection) runs = .ok rows →
      List.Forall₂ (fun run row =>
        (∃ table cells, Table.names cells = columns.map (·.name)
          ∧ row = Document.setAll cells (.obj (run.members ++ [(tableField, .obj table)])))
        ∧ ∀ name, name ≠ tableField →
          (∀ column ∈ columns, (Path.segments column.name).head? ≠ some name) →
          row.member? name = run.member? name) runs rows := by
  refine ⟨⟨_, run_tableStages_eq hruns hids⟩, fun rows hrows => ?_⟩
  rw [run_stages hruns hids, mapM_eq_ok] at hrows
  refine hrows.imp fun run row hrow => ⟨?_, fun name hname hcolumns => ?_⟩
  · obtain ⟨cells, hcells, rfl⟩ := computeFields_eq_ok.mp hrow
    refine ⟨_, cells, ?_, rfl⟩
    rw [names_evalFields hcells, columnFields, List.map_map]
    rfl
  · exact member?_joinRow hname hcolumns hrow

/-- A run with a stale and a valid reference, between runs without any. -/
theorem join_conserves_runs_of_three :
    let reference := fun id : Int => Json.obj [("name", .str "loss"), ("id", .int id)]
    let runs : List Json := [
      .obj [("_id", .int 1)],
      .obj [("_id", .int 2), ("info", .single "metrics" (.arr [reference 8, reference 7]))],
      .obj [("_id", .str "1"), ("info", .null)]]
    let series : List Json :=
      [.obj [("_id", .int 7), ("name", .str "loss"), ("values", .arr [.int 3, .int 2])]]
    ∃ rows, Pipeline.run (fun _ => series) (stages [⟨"best", "loss", .least, none⟩] "metrics") runs
        = .ok rows
      ∧ List.Forall₂ (fun run row => row.member? Field.id = run.member? Field.id) runs rows := by
  intro reference runs series
  have hruns : ∀ run ∈ runs, IsRun run := by decide
  have hids : (runs.map fun run => (idOf run).text).Nodup := by decide
  have hconserved := (join_conserves_runs (fun _ => series) "metrics"
    [⟨"best", "loss", .least, none⟩] hruns hids).2
  have hstages : ∃ rows, Pipeline.run (fun _ => series)
      (stages [⟨"best", "loss", .least, none⟩] "metrics") runs = .ok rows := ⟨_, rfl⟩
  obtain ⟨rows, hrows⟩ := hstages
  refine ⟨rows, hrows, (hconserved rows hrows).imp fun run row h => h.2 Field.id ?_ ?_⟩
  · decide
  · decide

end RunTable.MetricJoin
