import RunTable.Proofs.RowIdentity

/-!
# One run, fetched or listed

A run can be asked for by its number, or a list can be filtered by the identifier. The first chooses
the run before anything is read of it, the second tests the identifier of a row, and if the rest of
the filter waits for the join, of a joined row. Since rows keep the identifiers of their runs and
every stage between works row by row, both find the same run and show the same of it.

That takes both requests to need the same: the identifier is read in any case, so a filter that also
refers to it forces no other field, joins no other column and waits no longer.
-/

namespace RunTable

open Outcome MetricJoin

/-! ## What a test of the identifier adds to the needs -/

namespace NameSet

variable {set other : NameSet}

theorem eq_of_mem_iff (h : ∀ name, name ∈ set ↔ name ∈ other) : set = other := by
  obtain ⟨names, hnames⟩ := set
  obtain ⟨names', hnames'⟩ := other
  have hnodup : ∀ {names : List String}, names.Pairwise (· < ·) → names.Nodup :=
    fun h => h.imp fun hlt => Std.ne_of_lt hlt
  have hperm : names.Perm names' :=
    (List.perm_ext_iff_of_nodup (hnodup hnames) (hnodup hnames')).mpr h
  have heq : names = names' := hperm.eq_of_pairwise
    (fun a b _ _ hab hba => absurd hba (String.lt_asymm hab)) hnames hnames'
  subst heq
  rfl

end NameSet

namespace FieldSets

theorem foldl_force_filter (fields : List String) (sets : FieldSets) :
    (fields.filter (· != Field.id)).foldl force sets = fields.foldl force sets := by
  rw [List.foldl_filter]
  congr 1
  funext sets field
  split
  · rfl
  · next hid =>
      have hfield : (field == Field.id) = true := by simpa using hid
      rw [force, hfield, Bool.or_true, Bool.true_or, if_pos rfl]

end FieldSets

theorem Catalog.SparesId.name_ne {catalog : Catalog} (h : catalog.SparesId) {column : MetricColumn}
    (hcolumn : column ∈ catalog.metricColumns) : column.name ≠ Field.id := by
  intro hname
  have hcovers := h column hcolumn
  rw [hname] at hcovers
  exact absurd hcovers (by decide)

namespace Request

variable {request other : Request} {settings : Settings} {catalog : Catalog} {now : Instant}
  {store : Store}

/-- Fields are read as before if requests differ in the identifier only, which is read anyway. -/
theorem fields_needs_congr (hselection : request.selection catalog = other.selection catalog)
    (hsort : request.sortField catalog = other.sortField catalog)
    (hfilter : ∀ name, name ≠ Field.id →
      (name ∈ request.filterFields ↔ name ∈ other.filterFields))
    (hmetric : (request.needs catalog).metricColumns = (other.needs catalog).metricColumns)
    (hderived : (request.needs catalog).derived = (other.needs catalog).derived) :
    (request.needs catalog).fields = (other.needs catalog).fields := by
  have hnames : request.filterFields.filter (· != Field.id)
      = other.filterFields.filter (· != Field.id) := by
    refine NameSet.eq_of_mem_iff fun name => ?_
    rw [NameSet.mem_filter, NameSet.mem_filter]
    exact and_congr_left fun hne => hfilter name (by simpa using hne)
  have hforced : (request.forcedFields catalog).filter (· != Field.id)
      = (other.forcedFields catalog).filter (· != Field.id) := by
    rw [forcedFields, forcedFields, hsort, hmetric, hderived]
    simp only [List.filter_append]
    rw [show request.filterFields.names.filter (· != Field.id)
      = other.filterFields.names.filter (· != Field.id) from congrArg NameSet.names hnames]
  rw [fields_needs, fields_needs, hselection, ← FieldSets.foldl_force_filter, hforced,
    FieldSets.foldl_force_filter]

/-- Requests that agree in what they refer to besides the identifier need the same. -/
theorem needs_congr (hcolumns : catalog.SparesId)
    (hselection : request.selection catalog = other.selection catalog)
    (hsort : request.sortField catalog = other.sortField catalog)
    (hfilter : ∀ name, name ≠ Field.id →
      (name ∈ request.filterFields ↔ name ∈ other.filterFields)) :
    request.needs catalog = other.needs catalog := by
  have hplay : ∀ name, name ≠ Field.id →
      (name ∈ request.fieldsInPlay catalog ↔ name ∈ other.fieldsInPlay catalog) := by
    intro name hne
    simp only [fieldsInPlay, List.mem_append, hselection, hsort, NameSet.mem_names,
      hfilter name hne]
  have hmetric : (request.needs catalog).metricColumns = (other.needs catalog).metricColumns := by
    rw [← columnsInPlay_eq, ← columnsInPlay_eq]
    refine List.filter_congr fun column hcolumn => ?_
    exact decide_eq_decide.mpr (hplay column.name (hcolumns.name_ne hcolumn))
  have hderived : (request.needs catalog).derived = (other.needs catalog).derived := by
    refine Derived.ext ?_ ?_
    · simp only [duration_needs, hplay Field.duration (by decide)]
    · simp only [status_needs, hplay Field.status (by decide)]
  exact Needs.ext (fields_needs_congr hselection hsort hfilter hmetric hderived) hmetric hderived

/-- Rows are made and stripped by what a request needs. -/
theorem baseRow_congr (h : request.needs catalog = other.needs catalog) :
    request.baseRow settings catalog now = other.baseRow settings catalog now := by
  have hfields : request.derivedFields settings catalog now
      = other.derivedFields settings catalog now := by
    have hplay : ∀ {r : Request}, r.derivedFields settings catalog now
        = (if (r.needs catalog).derived.duration then
            [(Field.duration, Derived.durationExpr)] else [])
          ++ (if (r.needs catalog).derived.status then
            [(Field.status, Derived.statusExpr now settings.deadAfterMillis)] else []) := by
      intro r
      simp only [derivedFields, duration_needs, status_needs, decide_eq_true_eq]
    rw [hplay, hplay, h]
  funext run
  rw [baseRow, baseRow, hfields, shownRow, shownRow, h]

theorem recordRow_congr (h : request.needs catalog = other.needs catalog) (foreign : List Json) :
    request.recordRow settings catalog foreign = other.recordRow settings catalog foreign := by
  funext base
  rw [recordRow, recordRow, h]

theorem stripRow_congr (h : request.needs catalog = other.needs catalog) :
    request.stripRow catalog = other.stripRow catalog := by
  have hpaths : request.strippedPaths catalog = other.strippedPaths catalog := by
    rw [strippedPaths, strippedPaths, h]
  funext full
  rw [stripRow, stripRow, hpaths]

end Request

/-! ## Filters with a test of the identifier -/

namespace Filter

variable {filter : Option Json} {row : Json}

/-- The condition that a filter holds, if there is one, and the identifier is a number. -/
def withId (filter : Option Json) (id : Int) : Json :=
  match filter with
  | none => .single Field.id (.int id)
  | some f => .single "$and" (.arr [f, .single Field.id (.int id)])

theorem holds_withId (hrow : IsRecord row) (hscalar : (idOf row).isScalar = true) (id : Int) :
    holds (withId filter id) row
      = do return (← verdict filter row) && (idOf row).equal (.int id) := by
  have hid := Request.holds_id hrow hscalar id
  cases filter with
  | none =>
      rw [withId, hid]
      rfl
  | some f =>
      have hoperator : isOperator "$and" = true := by decide
      have hand : Logical.ofName? "$and" = some .and := by decide
      rw [withId, Json.single, holds, clausesHold.eq_def]
      simp only [hoperator, if_true, hand, allHold, hid]
      show _ = do return (← holds f row) && (idOf row).equal (.int id)
      cases holds f row with
      | error cause => rfl
      | ok pass =>
          cases pass <;> cases (idOf row).equal (.int id) <;> rfl

/-- A filter decides on a row together with the identifier exactly if it does so alone. -/
theorem verdict_withId {keep : Bool} (hrow : IsRecord row) (hscalar : (idOf row).isScalar = true)
    (id : Int) : verdict (some (withId filter id)) row = .ok keep
      ↔ ∃ pass, verdict filter row = .ok pass ∧ keep = (pass && (idOf row).equal (.int id)) := by
  show holds (withId filter id) row = .ok keep ↔ _
  rw [holds_withId hrow hscalar, bind_eq_ok]
  refine exists_congr fun pass => and_congr_right fun _ => ?_
  show Except.ok _ = _ ↔ _
  rw [Except.ok.injEq, eq_comm]

theorem isObject_of_verdict_withId {keep : Bool} {id : Int}
    (h : verdict (some (withId filter id)) row = .ok keep) : ∀ f ∈ filter, f.isObject = true := by
  rintro f rfl
  have hoperator : isOperator "$and" = true := by decide
  have hand : Logical.ofName? "$and" = some .and := by decide
  have hholds : holds (withId (some f) id) row = .ok keep := h
  rw [withId, Json.single, holds, clausesHold.eq_def] at hholds
  simp only [hoperator, if_true, hand, allHold] at hholds
  obtain ⟨satisfied, hsatisfied, -⟩ := bind_eq_ok.mp hholds
  obtain ⟨pass, hpass, -⟩ := bind_eq_ok.mp hsatisfied
  cases f <;> first | rfl | cases hpass

/-- The identifier is what such a filter refers to besides. -/
theorem mem_referencedFields_withId {name : String} (id : Int)
    (hfilter : ∀ f ∈ filter, f.isObject = true) :
    name ∈ referencedFields (withId filter id)
      ↔ name ∈ filter.elim .empty referencedFields ∨ name = Field.id := by
  have hid : isOperator Field.id = false := by decide
  have hand : isOperator "$and" = true := by decide
  cases filter with
  | none =>
      have hobject : (withId none id).isObject = true := rfl
      rw [referencedFields, if_pos hobject, fields, NameSet.mem_ofList]
      simp [withId, Json.single, listFields, listMembers, hid, Json.int]
  | some f =>
      have hobject : (withId (some f) id).isObject = true := rfl
      rw [referencedFields, if_pos hobject, fields, NameSet.mem_ofList, Option.elim_some,
        referencedFields, if_pos (hfilter f rfl), fields, NameSet.mem_ofList]
      simp [withId, Json.single, listFields, listItems, listMembers, hid, hand, Json.int]

end Filter

namespace Request

variable {list one : Request} {settings : Settings} {catalog : Catalog} {now : Instant}
  {store : Store} {rows : List Json} {id : Int}

/-! ## The run that is found -/

/-- A list request for the run of a number beside the request for that run: both show the same
columns, and the list is neither sorted nor cut from above. -/
structure Lists (list one : Request) (id : Int) : Prop where
  list_mode : list.mode = .list
  one_mode : one.mode = .single id
  select : list.select = one.select
  filter : list.filter = some (Filter.withId one.filter id)
  sortBy : list.sortBy = none
  skip : list.skip = 0

namespace Lists

variable (h : Lists list one id)

include h

theorem mem_filterFields (hfilter : ∀ f ∈ one.filter, f.isObject = true) {name : String} :
    name ∈ list.filterFields ↔ name ∈ one.filterFields ∨ name = Field.id := by
  rw [filterFields, filterFields, h.filter]
  exact Filter.mem_referencedFields_withId id hfilter

theorem needs_eq (hcolumns : catalog.SparesId) (hfilter : ∀ f ∈ one.filter, f.isObject = true) :
    list.needs catalog = one.needs catalog := by
  refine needs_congr hcolumns ?_ ?_ fun name hne => ?_
  · simp [selection, h.list_mode, h.one_mode, h.select]
  · simp [sortField, h.list_mode, h.one_mode, h.sortBy]
  · rw [h.mem_filterFields hfilter, or_iff_left hne]

theorem filterDeferred_eq (hcolumns : catalog.SparesId)
    (hfilter : ∀ f ∈ one.filter, f.isObject = true) :
    list.filterDeferred catalog = one.filterDeferred catalog := by
  have hid : catalog.isMetric Field.id = false := by
    rw [Catalog.isMetric, List.any_eq_false]
    exact fun column hcolumn hname => hcolumns.name_ne hcolumn (eq_of_beq hname)
  rw [Bool.eq_iff_iff, filterDeferred, filterDeferred, List.any_eq_true, List.any_eq_true]
  simp only [NameSet.mem_names, h.mem_filterFields hfilter]
  constructor
  · rintro ⟨field, hfield | rfl, hmetric⟩
    · exact ⟨field, hfield, hmetric⟩
    · rw [hid] at hmetric
      cases hmetric
  · rintro ⟨field, hfield, hmetric⟩
    exact ⟨field, .inl hfield, hmetric⟩

end Lists

theorem found_of_le_one (hskip : list.skip = 0) (hlimit : 0 < list.pageSize settings)
    {keeps : Json → Bool} (hone : ((store.documents settings.runs).filter keeps).length ≤ 1)
    (g : Json → Json) :
    list.found settings catalog store keeps g = (store.documents settings.runs).filter keeps := by
  rw [found]
  generalize (store.documents settings.runs).filter keeps = kept at hone ⊢
  rcases kept with _ | ⟨run, _ | ⟨other, rest⟩⟩
  · exact Paging.page_nil _ _
  · exact Paging.page_single hskip hlimit g run
  · cases Nat.le_of_succ_le_succ hone

theorem resorted_of_le_one (hone : rows.length ≤ 1) :
    list.resorted settings catalog rows = rows := by
  rw [resorted]
  split
  · rcases rows with _ | ⟨row, _ | ⟨other, rest⟩⟩
    · exact List.mergeSort_nil
    · exact List.mergeSort_singleton row
    · cases Nat.le_of_succ_le_succ hone
  · rfl

/-- A run that has an identifier of its own is the only one that a test of it leaves. -/
theorem length_filter_id_le_one (hruns : store.HasRecords settings)
    (hids : UniqueIds (store.documents settings.runs)) (p : Json → Bool) (id : Int) :
    ((store.documents settings.runs).filter
      fun run => p run && (idOf run).equal (.int id)).length ≤ 1 := by
  have hnodup : ((store.documents settings.runs).filter
      fun run => p run && (idOf run).equal (.int id)).Nodup := hids.nodup_ids.of_map.filter _
  have hall : ∀ run ∈ (store.documents settings.runs).filter
      (fun run => p run && (idOf run).equal (.int id)),
      run ∈ store.documents settings.runs ∧ (idOf run).equal (.int id) = true := by
    intro run hrun
    obtain ⟨hmem, hpass⟩ := List.mem_filter.mp hrun
    exact ⟨hmem, (Bool.and_eq_true_iff.mp hpass).2⟩
  rcases hfound : (store.documents settings.runs).filter
      (fun run => p run && (idOf run).equal (.int id)) with _ | ⟨a, _ | ⟨b, rest⟩⟩
  · exact Nat.zero_le 1
  · exact Nat.le_refl 1
  · rw [hfound] at hnodup hall
    obtain ⟨ha, haid⟩ := hall a List.mem_cons_self
    obtain ⟨hb, hbid⟩ := hall b (List.mem_cons_of_mem _ List.mem_cons_self)
    have heq : a = b := hids.eq_of_equal (fun run hrun => (hruns run hrun).2) ha hb haid hbid
    exact absurd (heq ▸ List.mem_cons_self) (List.nodup_cons.mp hnodup).1

/-- What the filter of a list lets pass, its own test and that of the identifier apart. -/
theorem Lists.verdicts (h : Lists list one id) (hruns : store.HasRecords settings)
    {g : Json → Json} {keeps : Json → Bool}
    (hrows : ∀ run ∈ store.documents settings.runs, IsRecord (g run) ∧ idOf (g run) = idOf run)
    (hkeeps : ∀ run ∈ store.documents settings.runs,
      verdict list.filter (g run) = .ok (keeps run)) :
    ∃ p : Json → Bool, (∀ run ∈ store.documents settings.runs,
        verdict one.filter (g run) = .ok (p run))
      ∧ (store.documents settings.runs).filter keeps = (store.documents settings.runs).filter
        fun run => p run && (idOf run).equal (.int id) := by
  have hverdicts : ∀ run ∈ store.documents settings.runs, ∃ pass,
      verdict one.filter (g run) = .ok pass
        ∧ keeps run = (pass && (idOf run).equal (.int id)) := by
    intro run hrun
    obtain ⟨hrecord, hid⟩ := hrows run hrun
    have hkeep := hkeeps run hrun
    rw [h.filter, Filter.verdict_withId hrecord (hid ▸ (hruns run hrun).2), hid] at hkeep
    exact hkeep
  choose! p hp hkeep using hverdicts
  exact ⟨p, hp, List.filter_congr hkeep⟩

theorem verdict_chosenFilter (hruns : store.HasRecords settings) (hmode : one.mode = .single id) :
    ∀ run ∈ store.documents settings.runs,
      verdict one.chosenFilter run = .ok ((idOf run).equal (.int id)) := by
  intro run hrun
  rw [chosenFilter, hmode]
  exact holds_id (hruns run hrun).1 (hruns run hrun).2 id

namespace Lists

variable (h : Lists list one id) (hruns : store.HasRecords settings)
  (hids : UniqueIds (store.documents settings.runs)) (hlimit : 0 < list.pageSize settings)
  (hneeds : list.needs catalog = one.needs catalog)
  (hsame : list.filterDeferred catalog = one.filterDeferred catalog)
  (hrows : (list.compile settings catalog now).execute store = .ok (.page rows))

include h hruns hids hlimit hneeds hsame hrows

/-- The list shows what the other request leaves of the run that it chooses. -/
theorem exists_leaves (hcolumns : catalog.SparesId) :
    ∃ found r, one.Leaves settings catalog now
        (one.recordRow settings catalog (store.documents settings.metrics))
        (store.documents settings.runs) found r
      ∧ rows = found.map fun run => one.stripRow catalog (r run) := by
  have hjoins : list.JoinsBy settings catalog now store _ := joinsBy_of_records hruns hids.nodup_ids
  obtain ⟨b, r, keeps, hhas, rfl⟩ := (hjoins.execute_list h.list_mode).mp hrows
  obtain ⟨p, hp, hkept⟩ := h.verdicts hruns
    (fun run hrun => hhas.idOf_row hruns hcolumns hrun .inl) hhas.verdicts
  obtain ⟨hb, hr, -⟩ := hhas
  rw [baseRow_congr hneeds] at hb
  rw [recordRow_congr hneeds] at hr
  rw [hsame] at hp
  have hone := length_filter_id_le_one hruns hids p id
  have hpicked : ∀ run ∈ (store.documents settings.runs).filter
      fun run => (idOf run).equal (.int id), run ∈ store.documents settings.runs :=
    fun run hrun => (List.mem_filter.mp hrun).1
  have hpage : list.pageRuns settings catalog store b r keeps
      = ((store.documents settings.runs).filter fun run =>
          (idOf run).equal (.int id)).filter p := by
    rw [pageRuns, found_of_le_one h.skip hlimit (by rwa [hkept]), hkept, List.filter_filter]
  have hshown : ∀ run ∈ ((store.documents settings.runs).filter
      fun run => (idOf run).equal (.int id)).filter p,
      one.recordRow settings catalog (store.documents settings.metrics) (b run) = .ok (r run) :=
    fun run hrun => hr run (hpicked run (List.mem_filter.mp hrun).1)
      (reaches_of_mem_pageRuns (hpage ▸ hrun))
  rw [resorted_of_le_one (by rwa [List.length_map, hpage, List.filter_filter]), hpage, List.map_map,
    stripRow_congr hneeds]
  refine ⟨_, r, leaves_of_verdicts (verdict_chosenFilter hruns h.one_mode)
    (fun run hrun => hb run (hpicked run hrun)) hshown
    (fun run hrun => hp run (hpicked run hrun)) fun hfilter run hrun => ?_, rfl⟩
  exact hr run (hpicked run hrun) (.inl (hsame.trans hfilter))

end Lists

/-! ## Fetching one run -/

/-- A list of some runs has decided on rows of them, which only an object does. -/
theorem Lists.isObject_filter (h : Lists list one id) (hruns : store.HasRecords settings)
    (hids : UniqueIds (store.documents settings.runs))
    (hrows : (list.compile settings catalog now).execute store = .ok (.page rows)) {run : Json}
    (hrun : run ∈ store.documents settings.runs) : ∀ f ∈ one.filter, f.isObject = true := by
  have hjoins : list.JoinsBy settings catalog now store _ := joinsBy_of_records hruns hids.nodup_ids
  obtain ⟨row, keep, hkeep⟩ : ∃ row keep, verdict list.filter row = .ok keep := by
    obtain ⟨b, r, keeps, hhas, -⟩ := (hjoins.execute_list h.list_mode).mp hrows
    exact ⟨_, _, hhas.verdicts run hrun⟩
  rw [h.filter] at hkeep
  exact Filter.isObject_of_verdict_withId hkeep

/-- Fetching a run agrees with listing it. If the list of the runs of a number succeeds, the request
for that run succeeds and shows the first of the list, or nothing if the list is empty. -/
theorem fetch_eq_first_listed (h : Lists list one id) (hruns : store.HasRecords settings)
    (hids : (store.documents settings.runs).Pairwise fun a b => (idOf a).equal (idOf b) = false)
    (hcolumns : catalog.SparesId) (hlimit : 0 < list.pageSize settings)
    (hrows : (list.compile settings catalog now).execute store = .ok (.page rows)) :
    (one.compile settings catalog now).execute store = .ok (.document rows.head?) := by
  have hids : UniqueIds (store.documents settings.runs) :=
    (uniqueIds_iff fun run hrun => (hruns run hrun).2).mpr hids
  have hunpaged : one.mode ≠ .list := by
    rw [h.one_mode]
    nofun
  have hjoins : one.JoinsBy settings catalog now store _ := joinsBy_of_records hruns hids.nodup_ids
  obtain ⟨found, r, hleaves, rfl⟩ : ∃ found r, one.Leaves settings catalog now
        (one.recordRow settings catalog (store.documents settings.metrics))
        (store.documents settings.runs) found r
      ∧ rows = found.map fun run => one.stripRow catalog (r run) := by
    by_cases hobject : ∀ f ∈ one.filter, f.isObject = true
    · exact h.exists_leaves hruns hids hlimit (h.needs_eq hcolumns hobject)
        (h.filterDeferred_eq hcolumns hobject) hrows hcolumns
    · have hnone : store.documents settings.runs = [] :=
        List.eq_nil_iff_forall_not_mem.mpr fun run hrun =>
          hobject (h.isObject_filter hruns hids hrows hrun)
      have hlisted : list.JoinsBy settings catalog now store _ :=
        joinsBy_of_records hruns hids.nodup_ids
      obtain ⟨found, r, -, hmem, -, rfl⟩ := hlisted.rows_of_page h.list_mode hrows
      rw [hnone] at hmem ⊢
      rw [List.eq_nil_iff_forall_not_mem.mpr fun run hrun => List.not_mem_nil (hmem run hrun)]
      exact ⟨[], r, ⟨fun _ => true, fun _ => true, fun _ => true, r, nofun, nofun, nofun, nofun,
        nofun, rfl⟩, rfl⟩
  refine (hjoins.execute_unpaged hunpaged).mpr ⟨found, r, hleaves, ?_⟩
  rw [reply, h.one_mode]
  rfl

/-- The second of two runs, with a filter that waits for its metric column. -/
theorem fetch_eq_first_listed_of_two :
    let run := fun id : Int => Json.obj [("_id", .int id),
      ("info", .single "metrics" (.arr [.obj [("name", .str "loss"), ("id", .int 7)]]))]
    let series := Json.obj [("_id", .int 7), ("name", .str "loss"), ("values", .arr [.int 4])]
    let store : Store := { collections := [("runs", [run 1, run 2]), ("metrics", [series])] }
    let catalog : Catalog := { metricColumns := [⟨"best", "loss", .least, none⟩] }
    let below := Json.single "best" (.single "$lt" (.int 5))
    let list : Request := {
      select := ["best"], filter := some (.single "$and" (.arr [below, .single "_id" (.int 2)])) }
    let one : Request := { mode := .single 2, select := ["best"], filter := some below }
    let row := Json.obj [("_id", .int 2), ("best", .int 4)]
    (list.compile {} catalog ⟨0, 0⟩).execute store = .ok (.page [row])
      ∧ (one.compile {} catalog ⟨0, 0⟩).execute store = .ok (.document (some row)) := by
  intro run series store catalog below list one row
  have hruns : store.HasRecords {} := List.forall_mem_cons.mpr
    ⟨⟨by decide, rfl⟩, List.forall_mem_singleton.mpr ⟨by decide, rfl⟩⟩
  have hids : (store.documents "runs").Pairwise fun a b => (idOf a).equal (idOf b) = false := by
    decide
  have hunique : UniqueIds (store.documents "runs") :=
    (uniqueIds_iff fun doc hdoc => (hruns doc hdoc).2).mpr hids
  have hcolumns : catalog.SparesId := by
    intro column hcolumn
    rw [List.mem_singleton.mp hcolumn]
    decide
  have hlists : Lists list one 2 := ⟨rfl, rfl, rfl, rfl, rfl, rfl⟩
  have hjoins : list.JoinsBy {} catalog ⟨0, 0⟩ store _ := joinsBy_of_records hruns hunique.nodup_ids
  let full := fun doc : Json => Json.obj (doc.members
    ++ [("__metrics", .single "loss" series), ("best", .int 4)])
  have hbase : ∀ doc ∈ [run 1, run 2], list.baseRow {} catalog ⟨0, 0⟩ doc = .ok doc := by
    subst catalog list below run
    exact List.forall_mem_cons.mpr ⟨rfl, List.forall_mem_singleton.mpr rfl⟩
  have hfull : ∀ doc ∈ [run 1, run 2], list.recordRow {} catalog [series] doc
      = .ok (full doc) := by
    subst catalog list below full series run
    exact List.forall_mem_cons.mpr ⟨rfl, List.forall_mem_singleton.mpr rfl⟩
  have hkeeps : ∀ doc ∈ [run 1, run 2], verdict list.filter (full doc)
      = .ok ((idOf doc).equal (.int 2)) := by
    subst list below full series run
    exact List.forall_mem_cons.mpr ⟨rfl, List.forall_mem_singleton.mpr rfl⟩
  have hpage : (list.compile {} catalog ⟨0, 0⟩).execute store = .ok (.page [row]) := by
    refine (hjoins.execute_deferred rfl (by decide)).mpr
      ⟨fun doc => doc, hbase, full, hfull, fun doc => (idOf doc).equal (.int 2), hkeeps, ?_⟩
    have hlimit : 0 < list.pageSize {} := by decide
    rw [found, show (store.documents "runs").filter (fun doc => (idOf doc).equal (.int 2))
      = [run 2] from rfl, Paging.page_single rfl hlimit]
    subst catalog list below full series run row
    rfl
  exact ⟨hpage, fetch_eq_first_listed hlists hruns hids hcolumns (by decide) hpage⟩

end Request

end RunTable
