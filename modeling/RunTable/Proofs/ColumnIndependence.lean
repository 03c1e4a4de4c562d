import RunTable.Proofs.MetricCells

/-!
# A metric column and its neighbours

The columns of a request decide together which references of a run are wanted, which series these
may find and what the table of the run holds. So a further column changes the rows at every stage of
a join. It changes no cell, as long as references say what they refer to: a reference that gives the
name of a series then finds a series of that name or none, whatever else is looked up. The cell of a
column is that of a request for this column alone.

Nothing here asks that runs be free of the fields of a join. A join overwrites what it finds there
before it reads it.
-/

namespace RunTable.MetricJoin

open Outcome

variable {names : List String} {collection series : String} {foreign : List Json} {run row : Json}
  {columns : List MetricColumn} {column : MetricColumn}

/-! ## References that say what they refer to -/

/-- The name of a reference or a series, if it has a text for one. -/
def nameOf? (doc : Json) : Option String := (doc.member? "name").bind Json.str?

theorem isNamed_eq (names : List String) (doc : Json) :
    isNamed names doc = (nameOf? doc).any names.contains := rfl

/-- Whether each series that a reference of a run refers to has the name that the reference
gives. -/
def NamedTruly (foreign : List Json) (run : Json) : Prop :=
  ∀ ref ∈ refsOf run, ∀ doc ∈ foreign, refersTo ref doc = true →
    ∀ name ∈ nameOf? ref, nameOf? doc = some name

instance (foreign : List Json) (run : Json) : Decidable (NamedTruly foreign run) :=
  inferInstanceAs (Decidable (∀ ref ∈ refsOf run, ∀ doc ∈ foreign, refersTo ref doc = true →
    ∀ name ∈ nameOf? ref, nameOf? doc = some name))

/-- Only references that give a name are wanted, so those that are wanted are labelled right. -/
theorem NamedTruly.isNamed_eq_of_wanted (h : NamedTruly foreign run) {ref : Json}
    (href : ref ∈ wantedRefs names run) {doc : Json} (hdoc : doc ∈ foreign)
    (hrefers : refersTo ref doc = true) : isNamed [series] doc = isNamed [series] ref := by
  rw [wantedRefs_eq, List.mem_filter] at href
  obtain ⟨hmem, hwanted⟩ := href
  obtain ⟨name, hname, -⟩ := (Option.any_eq_true _ _).mp hwanted
  rw [isNamed_eq, isNamed_eq, h ref hmem doc hdoc hrefers name hname, nameOf?, hname]

/-! ## Cells of a request -/

/-- Metric columns that a join keeps apart: each has a name of its own, which is a path of one
segment, and none asks for the entries of references that find nothing. -/
structure KeptApart (columns : List MetricColumn) : Prop where
  names : (columns.map (·.name)).Nodup
  undotted : ∀ column ∈ columns, '.' ∉ column.name.toList
  series : ∀ column ∈ columns, column.series ≠ unmatchedName

instance (columns : List MetricColumn) : Decidable (KeptApart columns) :=
  decidable_of_iff
    ((columns.map (·.name)).Nodup ∧ (∀ column ∈ columns, '.' ∉ column.name.toList)
      ∧ ∀ column ∈ columns, column.series ≠ unmatchedName)
    ⟨fun ⟨names, undotted, series⟩ => { names, undotted, series },
      fun h => ⟨h.names, h.undotted, h.series⟩⟩

/-- Each cell is read at the name of its column. -/
theorem CellsOf.get?_setAll {cells : List (String × Json)}
    (h : CellsOf names foreign run columns cells) (hcolumns : KeptApart columns)
    (hrow : ∃ members, row = .obj members) (hcolumn : column ∈ columns) :
    ∃ value, cell names foreign run column = .ok value
      ∧ Document.get? column.name (Document.setAll cells row) = some value := by
  obtain ⟨value, hvalue, hmem⟩ := h.exists_mem hcolumn
  have hwritable : Document.Writable (Table.names cells) row := by
    refine writable_of_undotted hrow fun path hpath => ?_
    rw [h.names_eq] at hpath
    obtain ⟨other, hother, rfl⟩ := List.mem_map.mp hpath
    exact hcolumns.undotted other hother
  refine ⟨value, hvalue, Document.get?_setAll hwritable (Table.mem_names hmem) fun _ hwrite => ?_⟩
  exact Table.eq_of_mem (h.names_eq ▸ hcolumns.names) hmem hwrite

/-- A join writes the cells of its columns into a document, whatever it holds. -/
theorem joinedRow_eq_ok (hnodup : (Table.names run.members).Nodup)
    (hseries : ∀ column ∈ columns, column.series ≠ unmatchedName) :
    joinedRow columns collection foreign run = .ok row ↔
      ∃ cells, CellsOf (seriesNames columns).names foreign run columns cells
        ∧ row = Document.setAll cells
          (tabledRow (seriesNames columns).names collection foreign run) := by
  rw [joinedRow, computeFields_eq_ok]
  exact exists_congr fun cells => and_congr_left fun _ =>
    evalFields_columns_of_table (getOrNull_tabledRow hnodup) hseries

/-- The cell of a column is that of a request for this column alone. -/
theorem get?_joinedRow (hnodup : (Table.names run.members).Nodup)
    (hnamed : NamedTruly foreign run) (hcolumns : KeptApart columns)
    (hrow : joinedRow columns collection foreign run = .ok row) (hcolumn : column ∈ columns) :
    ∃ value, cell [column.series] foreign run column = .ok value
      ∧ Document.get? column.name row = some value := by
  obtain ⟨cells, hcells, rfl⟩ := (joinedRow_eq_ok hnodup hcolumns.series).mp hrow
  have hobject : ∃ members,
      tabledRow (seriesNames columns).names collection foreign run = .obj members :=
    (lookup_tabledRow hnodup).1
  obtain ⟨value, hvalue, hread⟩ := hcells.get?_setAll hcolumns hobject hcolumn
  refine ⟨value, ?_, hread⟩
  rw [← hvalue]
  refine (cell_eq_of_wanted (mem_seriesNames hcolumn) fun ref href doc hdoc hrefers => ?_).symm
  exact hnamed.isNamed_eq_of_wanted href hdoc hrefers

/-- A metric column does not depend on its neighbours. The row of a run that shares its identifier
with no other stands behind those of the identifiers before it. If each series that the run refers
to has the name that the reference gives, two joins of the same runs show the same value there in
every column that both have. -/
theorem column_ignores_neighbours (collections : Collections) (collection : String)
    {columns others : List MetricColumn} {before after rows rows' : List Json} {run : Json}
    (hnodup : ∀ doc ∈ before ++ run :: after, (Table.names doc.members).Nodup)
    (hids : ∀ other ∈ before ++ after, (idOf other).text ≠ (idOf run).text)
    (hnamed : NamedTruly (collections collection) run)
    (hcolumns : KeptApart columns) (hothers : KeptApart others)
    (hrows : Pipeline.run collections (stages columns collection) (before ++ run :: after)
      = .ok rows)
    (hrows' : Pipeline.run collections (stages others collection) (before ++ run :: after)
      = .ok rows') :
    ∃ row row', rows[(keyTexts idOf before).length]? = some row
      ∧ rows'[(keyTexts idOf before).length]? = some row'
      ∧ ∀ column ∈ columns, column ∈ others → ∃ value,
        Document.get? column.name row = some value
          ∧ Document.get? column.name row' = some value := by
  have hself : (Table.names run.members).Nodup :=
    hnodup run (List.mem_append_right _ List.mem_cons_self)
  obtain ⟨row, hrow, hjoined⟩ := joinedRow_of_stages hnodup hids hrows
  obtain ⟨row', hrow', hjoined'⟩ := joinedRow_of_stages hnodup hids hrows'
  refine ⟨row, row', hrow, hrow', fun column hcolumn hother => ?_⟩
  obtain ⟨value, hvalue, hread⟩ := get?_joinedRow hself hnamed hcolumns hjoined hcolumn
  obtain ⟨value', hvalue', hread'⟩ := get?_joinedRow hself hnamed hothers hjoined' hother
  cases hvalue.symm.trans hvalue'
  exact ⟨value, hread, hread'⟩

/-- A column on its own and beside two others, for a run that refers to the series of both names,
to one that is gone, and to one without giving a name, and that has a field of the join. -/
theorem column_ignores_neighbours_of_three :
    let run := Json.obj [("_id", .int 2), ("__metrics", .null), ("info", .single "metrics" (.arr [
      .obj [("name", .str "loss"), ("id", .int 7)],
      .obj [("name", .str "rate"), ("id", .int 8)],
      .obj [("name", .str "loss"), ("id", .int 9)],
      .obj [("id", .int 8)]]))]
    let stored := [
      Json.obj [("_id", .int 8), ("name", .str "rate"), ("values", .arr [.int 5])],
      .obj [("_id", .int 7), ("name", .str "loss"), ("values", .arr [.int 3, .int 1])]]
    ∃ rows rows' row row',
      Pipeline.run (fun _ => stored) (stages [⟨"best", "loss", .least, none⟩] "metrics")
        ([.obj []] ++ run :: []) = .ok rows
      ∧ Pipeline.run (fun _ => stored) (stages [⟨"worst", "loss", .greatest, none⟩,
        ⟨"best", "loss", .least, none⟩, ⟨"speed", "rate", .last, none⟩] "metrics")
        ([.obj []] ++ run :: []) = .ok rows'
      ∧ rows[1]? = some row ∧ rows'[1]? = some row'
      ∧ Document.get? "best" row = Document.get? "best" row' := by
  intro run stored
  obtain ⟨rows, hrows⟩ : ∃ rows, Pipeline.run (fun _ => stored)
      (stages [⟨"best", "loss", .least, none⟩] "metrics") ([.obj []] ++ run :: []) = .ok rows :=
    ⟨_, rfl⟩
  obtain ⟨rows', hrows'⟩ : ∃ rows, Pipeline.run (fun _ => stored)
      (stages [⟨"worst", "loss", .greatest, none⟩, ⟨"best", "loss", .least, none⟩,
        ⟨"speed", "rate", .last, none⟩] "metrics") ([.obj []] ++ run :: []) = .ok rows :=
    ⟨_, rfl⟩
  obtain ⟨row, row', hrow, hrow', hsame⟩ := column_ignores_neighbours (fun _ => stored) "metrics"
    (by decide) (by decide) (by decide) (by decide) (by decide) hrows hrows'
  obtain ⟨value, hread, hread'⟩ :=
    hsame ⟨"best", "loss", .least, none⟩ (by decide) (by decide)
  exact ⟨rows, rows', row, row', hrows, hrows', hrow, hrow', hread.trans hread'.symm⟩

end RunTable.MetricJoin
