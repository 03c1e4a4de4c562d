import RunTable.Proofs.EarlyPages
import RunTable.Proofs.ListPipeline

/-!
# Pages tile the result

Someone who leafs through a table sends one request for each page, and each is compiled and run on
its own. The pages must fit together: laid side by side they give the rows of the one request that
asks for everything, none lost, repeated or moved.

Wherever the page is cut, what is cut is a list of runs, sorted by what is seen of them, and that
list does not depend on the skip and the limit. So the runs of a page are a slice of the runs of the
whole, and since each row is made from its run alone, so are the rows. The one thing to worry about
is the page that is sorted again behind the join. It stays in order if the join leaves the sort keys
alone, which is the condition of the module on early pages; without it, a page and the whole may be
in different orders.
-/

namespace RunTable

open Outcome MetricJoin

/-- Slices of one length, one behind the other, give the beginning of a list. -/
theorem flatMap_slices {α : Type} (rows : List α) (size count : Nat) :
    (List.range count).flatMap (fun k => (rows.drop (k * size)).take size)
      = rows.take (count * size) := by
  induction count with
  | zero => simp
  | succ count ih =>
      rw [List.range_succ, List.flatMap_append, ih, List.flatMap_singleton, Nat.succ_mul,
        List.take_add]

namespace Request

/-- A request for another page. -/
def paged (request : Request) (skip : Nat) (limit : Option Nat) : Request :=
  { request with skip, limit }

variable {request : Request} {settings : Settings} {catalog : Catalog} {now : Instant}
  {store : Store} {rows : List Json} {limit : Option Nat} {size : Nat}

theorem Identifies.paged (h : request.Identifies settings catalog store) (skip : Nat)
    (limit : Option Nat) : (request.paged skip limit).Identifies settings catalog store where
  runs := h.runs
  apartIds := h.apartIds
  keepsId := h.keepsId

/-- The runs on a page are a slice of all that are found. -/
theorem found_paged (hsize : 1 ≤ size) (hclamp : settings.clampLimit size = size)
    (hlimit : (store.documents settings.runs).length ≤ (request.paged 0 limit).pageSize settings)
    (keeps : Json → Bool) (g : Json → Json) (k : Nat) :
    (request.paged (k * size) (some size)).found settings catalog store keeps g
      = (((request.paged 0 limit).found settings catalog store keeps g).drop (k * size)).take
        size := by
  have hpageSize : (request.paged (k * size) (some size)).pageSize settings = size := by
    have hpos : 0 < size := hsize
    rw [pageSize, paged, Option.filter_some, if_pos (decide_eq_true hpos), Option.getD_some,
      hclamp]
  have hall : (request.paged 0 limit).found settings catalog store keeps g
      = ((store.documents settings.runs).filter keeps).mergeSort fun a b =>
        (request.paging settings catalog).spec.cmp (g a) (g b) != .gt := by
    refine List.take_of_length_le (Nat.le_trans ?_ hlimit)
    rw [show ((request.paged 0 limit).paging settings catalog).skip = 0 from rfl, List.drop_zero,
      List.length_mergeSort]
    exact List.length_filter_le _ _
  rw [hall]
  exact congrArg (List.take · _) hpageSize

/-- The columns of a request leave its sort keys if they are apart from the identifier and from the
sort field and leave the value there. -/
theorem Identifies.keepsKeys (h : request.Identifies settings catalog store)
    (hid : ∀ column ∈ request.columnsInPlay catalog, Path.covers Field.id column.name = false)
    (hsort : ∀ field ∈ request.sortField catalog, Path.covers tableField field = false
      ∧ ∀ column ∈ request.columnsInPlay catalog,
        Path.Apart (Path.segments column.name) (Path.segments field))
    (hvalues : ∀ field ∈ request.sortField catalog, ∀ run ∈ store.documents settings.runs,
      ∀ base, request.baseRow settings catalog now run = .ok base →
        verdict request.filter base = .ok true →
          SparesValue (request.columnsInPlay catalog) field base) :
    request.KeepsKeys settings catalog now store := by
  intro run hrun base full hbase hpass hfull key hkey
  have hisRun := ((h.keepsId run hrun).isRun_baseRow (h.runs run hrun) hbase).1
  have hidApart : ∀ column ∈ (request.needs catalog).metricColumns,
      Path.Apart (Path.segments column.name) (Path.segments Field.id) := by
    intro column hcolumn
    rw [← columnsInPlay_eq] at hcolumn
    exact (Path.apart_of_not_covers segments_id (hid column hcolumn)).symm
  rw [columnsInPlay_eq] at hsort hvalues
  rw [fullRow] at hfull
  split at hfull
  · rcases keys_paging hkey with ⟨-, hfield⟩ | hfield
    · obtain ⟨htable, hcolumns⟩ := hsort key.1 hfield
      exact getOrNull_joinRow hisRun hfull htable hcolumns
        (hvalues key.1 hfield run hrun base hbase hpass)
    · rw [hfield]
      exact getOrNull_joinRow hisRun hfull (by decide) hidApart (sparesValue_id hisRun hidApart)
  · cases hfull
    rfl

/-- A page of a request is a slice of its whole result. -/
theorem Identifies.execute_paged (h : request.Identifies settings catalog store)
    (hmode : request.mode = .list)
    (hkeys : (request.paging settings catalog).placement = .early →
      request.KeepsKeys settings catalog now store)
    (hsize : 1 ≤ size) (hclamp : settings.clampLimit size = size)
    (hlimit : (store.documents settings.runs).length ≤ (request.paged 0 limit).pageSize settings)
    (hrows : ((request.paged 0 limit).compile settings catalog now).execute store
      = .ok (.page rows)) (k : Nat) :
    ((request.paged (k * size) (some size)).compile settings catalog now).execute store
      = .ok (.page ((rows.drop (k * size)).take size)) := by
  have hall : (request.paged 0 limit).Identifies settings catalog store := h.paged 0 limit
  have hpage : (request.paged (k * size) (some size)).Identifies settings catalog store :=
    h.paged _ _
  -- the runs of the page are a slice of all, so what is made of them is a slice as well
  have hfound : ∀ keeps g, (request.paged (k * size) (some size)).found settings catalog store
      keeps g = (((request.paged 0 limit).found settings catalog store keeps g).drop
        (k * size)).take size := fun keeps g => found_paged hsize hclamp hlimit keeps g k
  have hearly : request.cutsLate catalog = false → request.KeepsKeys settings catalog now store :=
    fun hlate => hkeys (by
      rw [placement_paging hmode]
      exact if_neg (ne_true_of_eq_false hlate))
  obtain ⟨b, r, keeps, hhas, rfl⟩ := ((hall.joinsBy now).execute_list hmode).mp hrows
  have hsliced : (request.paged (k * size) (some size)).HasRows settings catalog now store
      (request.fullRow catalog (store.documents settings.metrics)) b r keeps := by
    refine ⟨hhas.base, fun run hrun hreach => hhas.joins run hrun ?_, hhas.verdicts⟩
    refine hreach.imp_right (Or.imp_right fun hmem => ?_)
    rw [hfound] at hmem
    exact List.mem_of_mem_drop (List.mem_of_mem_take hmem)
  have hslice : (request.paged (k * size) (some size)).pageRuns settings catalog store b r keeps
      = (((request.paged 0 limit).pageRuns settings catalog store b r keeps).drop (k * size)).take
        size := hfound keeps _
  refine ((hpage.joinsBy now).execute_list hmode).mpr ⟨b, r, keeps, hsliced, ?_⟩
  rw [hhas.resorted_pageRuns hearly, hsliced.resorted_pageRuns hearly, hslice, List.map_take,
    List.map_drop, List.map_take, List.map_drop]
  rfl

/-- Pages tile the result. If the request for all runs succeeds, then so does the request for each
page, with its slice of the rows, and side by side the pages give all of them. Where the page is cut
before a join, the columns must leave the value at the sort field of each row that the filter lets
pass. -/
theorem pages_tile (h : request.Identifies settings catalog store) (hmode : request.mode = .list)
    (hid : ∀ column ∈ request.columnsInPlay catalog, Path.covers Field.id column.name = false)
    (hsort : ∀ field ∈ request.sortField catalog, Path.covers tableField field = false
      ∧ ∀ column ∈ request.columnsInPlay catalog, Path.isAncestor column.name field = false
        ∧ Path.isAncestor field column.name = false)
    (hvalues : (request.paging settings catalog).placement = .early →
      ∀ field ∈ request.sortField catalog, ∀ run ∈ store.documents settings.runs, ∀ base,
        request.baseRow settings catalog now run = .ok base →
          verdict request.filter base = .ok true →
            SparesValue (request.columnsInPlay catalog) field base)
    (hsize : 1 ≤ size) (hclamp : settings.clampLimit size = size)
    (hlimit : (store.documents settings.runs).length ≤ (request.paged 0 limit).pageSize settings)
    (hrows : ((request.paged 0 limit).compile settings catalog now).execute store
      = .ok (.page rows)) :
    ∃ pages : Nat → List Json,
      (∀ k, ((request.paged (k * size) (some size)).compile settings catalog now).execute store
          = .ok (.page (pages k))
        ∧ pages k = (rows.drop (k * size)).take size)
      ∧ ∀ count, rows.length ≤ count * size → (List.range count).flatMap pages = rows := by
  have hkeys : (request.paging settings catalog).placement = .early →
      request.KeepsKeys settings catalog now store := by
    intro hplace
    refine h.keepsKeys hid (fun field hfield => ?_) (hvalues hplace)
    obtain ⟨htable, hcolumns⟩ := hsort field hfield
    refine ⟨htable, fun column hcolumn => ?_⟩
    -- a column of the sort field itself would have put the page behind the join
    have hne : column.name ≠ field := by
      rintro rfl
      have hmetric : (request.sortField catalog).any catalog.isMetric = true :=
        Option.any_eq_true _ _ |>.mpr ⟨column.name, hfield,
          List.any_eq_true.mpr ⟨column, (List.mem_filter.mp hcolumn).1, beq_self_eq_true _⟩⟩
      rw [placement_paging hmode, hmetric] at hplace
      cases hplace
    obtain ⟨habove, hbelow⟩ := hcolumns column hcolumn
    exact Path.apart_of_not_isAncestor hne habove hbelow
  refine ⟨fun k => (rows.drop (k * size)).take size, fun k =>
    ⟨h.execute_paged hmode hkeys hsize hclamp hlimit hrows k, rfl⟩, fun count hcount => ?_⟩
  rw [flatMap_slices, List.take_of_length_le hcount]

/-- The second of two pages of three runs, in the order of a setting beside which a metric is
written. A fourth run, of which that would take the setting, is dropped by the filter. -/
theorem pages_tile_of_three :
    let refs := Json.single "metrics" (.arr [.obj [("name", .str "loss"), ("id", .int 7)]])
    let run := fun (id rate : Int) => Json.obj [("_id", .int id),
      ("config", .single "0" (.int rate)), ("info", refs)]
    let dropped := Json.obj [("_id", .int 4), ("config", .arr [.int 40]), ("info", refs)]
    let store : Store := { collections := [
      ("runs", [run 1 30, dropped, run 2 10, run 3 20]),
      ("metrics", [.obj [("_id", .int 7), ("name", .str "loss"), ("values", .arr [.int 4])]])] }
    let catalog : Catalog := { metricColumns := [⟨"config.best", "loss", .least, none⟩] }
    let request : Request := {
      select := ["config.best"]
      filter := some (.single "_id" (.single "$lt" (.int 4)))
      sortBy := some "config.0"
      order := .ascending }
    ∃ rows, (request.compile {} catalog ⟨0, 0⟩).execute store = .ok (.page rows)
      ∧ ((request.paged 2 (some 2)).compile {} catalog ⟨0, 0⟩).execute store
        = .ok (.page ((rows.drop 2).take 2)) := by
  intro refs run dropped store catalog request
  have hposed : request.Identifies {} catalog store :=
    ⟨by decide, nodup_ids_iff.mp (by decide), fun run hrun => .inl (by revert run; decide)⟩
  have hall : ∀ run ∈ store.documents "runs",
      (request.rowAt {} catalog ⟨0, 0⟩ (store.documents "metrics") true run).toOption.isSome = true
      ∧ (request.rowAt {} catalog ⟨0, 0⟩ (store.documents "metrics")
          (request.filterDeferred catalog) run
        >>= verdict request.filter).toOption.isSome = true := by decide
  obtain ⟨rows, hrows⟩ : ∃ rows, (request.compile {} catalog ⟨0, 0⟩).execute store
      = .ok (.page rows) := by
    refine (hposed.joinsBy _).exists_page rfl (fun run hrun => ?_) fun run hrun => ?_
    · exact isSome_toOption_iff.mp (hall run hrun).1
    · exact isSome_toOption_bind_iff.mp (hall run hrun).2
  have hsort : ∀ field ∈ request.sortField catalog, Path.covers tableField field = false
      ∧ ∀ column ∈ request.columnsInPlay catalog, Path.isAncestor column.name field = false
        ∧ Path.isAncestor field column.name = false := by decide
  have hvalues : ∀ field ∈ request.sortField catalog, ∀ run ∈ store.documents "runs", ∀ base,
      request.baseRow {} catalog ⟨0, 0⟩ run = .ok base → verdict request.filter base = .ok true →
        SparesValue (request.columnsInPlay catalog) field base := by
    intro field hfield run hrun base hbase hpass
    -- the array of the dropped run is the only one where the setting and the column lead together
    have hspares : ∀ field ∈ request.sortField catalog, ∀ run ∈ store.documents "runs",
        ∀ base ∈ (request.baseRow {} catalog ⟨0, 0⟩ run).toOption,
          (verdict request.filter base).toOption = some true →
            ∀ column ∈ request.columnsInPlay catalog,
              Document.NoSharedArray (Path.segments column.name) (Path.segments field) base := by
      decide
    exact .inr (hspares field hfield run hrun base (toOption_eq_some.mpr hbase)
      (toOption_eq_some.mpr hpass))
  have hsize : 1 ≤ 2 := by decide
  have hlimit : (store.documents "runs").length ≤ (request.paged 0 none).pageSize {} := by decide
  obtain ⟨pages, hpages, -⟩ := pages_tile hposed rfl (by decide) hsort (fun _ => hvalues) hsize rfl
    hlimit hrows
  obtain ⟨hpage, hslice⟩ := hpages 1
  exact ⟨rows, hrows, by rw [← hslice]; exact hpage⟩

/-- Where a column and the sort field lead through one array, a page can be in another order than
the whole result. -/
theorem pages_do_not_tile :
    let column : MetricColumn := ⟨"a.b", "loss", .least, none⟩
    let store : Store := { collections := [("runs", [
      .obj [("_id", .int 1), ("a", .arr [.int 2])],
      .obj [("_id", .int 2), ("a", .arr [.int 1])]])] }
    let catalog : Catalog := { metricColumns := [column] }
    let request : Request := {
      select := ["a", "a.b"], sortBy := some "a.0", order := .ascending }
    request.Identifies {} catalog store
    ∧ (∀ run ∈ store.documents "runs", (idOf run).isScalar = true)
    ∧ Path.covers Field.id column.name = false ∧ Path.covers tableField "a.0" = false
    ∧ Path.isAncestor column.name "a.0" = false ∧ Path.isAncestor "a.0" column.name = false
    ∧ ∃ rows page, ((request.paged 0 none).compile {} catalog ⟨0, 0⟩).execute store
        = .ok (.page rows)
      ∧ ((request.paged 0 (some 1)).compile {} catalog ⟨0, 0⟩).execute store = .ok (.page page)
      ∧ rows.map (fun row => (idOf row).text) = ["1", "2"]
      ∧ page.map (fun row => (idOf row).text) = ["2"] := by
  intro column store catalog request
  let first := Json.obj [("_id", .int 1), ("a", .arr [.int 2])]
  let second := Json.obj [("_id", .int 2), ("a", .arr [.int 1])]
  let spec : SortSpec := ⟨"a.0", .ascending, [(Field.id, .ascending)]⟩
  have hruns : ∀ run ∈ store.documents "runs", IsRun run := by decide
  have hscalar : ∀ run ∈ store.documents "runs", (idOf run).isScalar = true := by decide
  have hcut : spec.sort [first, second] = [second, first] :=
    (SortSpec.sort_pair spec first second).trans (if_neg (by decide))
  have hposed : request.Identifies {} catalog store :=
    ⟨hruns, nodup_ids_iff.mp (by decide), fun run hrun => .inl (hscalar run hrun)⟩
  let r := fun run => Document.set "a.b" .null (withTable ["loss"] [] run)
  have hbase : ∀ run ∈ store.documents "runs", request.baseRow {} catalog ⟨0, 0⟩ run = .ok run := by
    subst catalog request column
    exact List.forall_mem_cons.mpr ⟨rfl, List.forall_mem_singleton.mpr rfl⟩
  have hfull : ∀ run ∈ store.documents "runs", request.fullRow catalog [] run = .ok (r run) := by
    subst catalog request column
    exact List.forall_mem_cons.mpr ⟨rfl, List.forall_mem_singleton.mpr rfl⟩
  have hsort : (request.sortField catalog).any catalog.isMetric = false := by decide
  have hfilter : request.filterDeferred catalog = false := by decide
  have hjoin : (request.needs catalog).join = true := by decide
  have hrows : ∀ limit found,
      [second, first].take ((request.paged 0 limit).pageSize {}) = found →
      ((request.paged 0 limit).compile {} catalog ⟨0, 0⟩).execute store
        = .ok (.page ((spec.sort (found.map r)).map (request.stripRow catalog))) := by
    rintro limit _ rfl
    have hfound : (request.paged 0 limit).found {} catalog store (fun _ => true) id
        = [second, first].take ((request.paged 0 limit).pageSize {}) := congrArg (List.take _) hcut
    refine (((hposed.paged 0 limit).joinsBy _).execute_early_resorted rfl hsort hfilter).mpr
      ⟨id, hbase, fun _ => true, fun _ _ => rfl, r, fun run hrun => ?_, ?_⟩
    · exact hfull run (mem_of_mem_found hrun)
    · rw [hfound]
      exact congrArg (List.map _) (if_pos hjoin).symm
  have hresort : spec.sort [r second, r first] = [r first, r second] :=
    (SortSpec.sort_pair spec (r second) (r first)).trans (if_neg (by decide))
  refine ⟨hposed, hscalar, by decide, by decide, by decide, by decide, _, _,
    hrows none [second, first] rfl, hrows (some 1) [second] rfl, ?_, ?_⟩
  · rw [show spec.sort ([second, first].map r) = [r first, r second] from hresort]
    decide
  · rw [show spec.sort ([second].map r) = [r second] from List.mergeSort_singleton _]
    decide

end Request

end RunTable
