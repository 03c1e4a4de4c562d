import RunTable.Proofs.IntegerOrder
import RunTable.Proofs.SingleRun

/-!
# Runs with integer identifiers

A run is asked for, and replaced, by its number. Both look for the first run whose identifier equals
the number, and integers are equal when their nearest doubles are. So the number of a run stands for
every integer that rounds to the same double: up to 53 bits that is the number alone, and beyond
them a request may find a neighbour and a write may replace it.
-/

namespace RunTable

open Outcome MetricJoin

namespace Store

variable {store : Store} {settings : Settings} {run doc : Json}
  {id value : Json} {m n : Int}

/-- Whether the runs are records whose identifiers are integers. -/
def HasIntegerIds (store : Store) (settings : Settings) : Prop :=
  ∀ run ∈ store.documents settings.runs, IsRecord run ∧ ∃ n, idOf run = .int n

theorem HasIntegerIds.hasRecords (h : store.HasIntegerIds settings) :
    store.HasRecords settings := by
  intro run hrun
  obtain ⟨hrecord, n, hid⟩ := h run hrun
  exact ⟨hrecord, by rw [hid]; rfl⟩

/-- Whether a run is told apart from a number by its identifier: no two different integers that
round to one double. -/
def ToldApart (n : Int) (run : Json) : Prop :=
  ∀ m, idOf run = .int m → (Double.ofInt m).key = (Double.ofInt n).key → m = n

theorem identifies_eq (hrun : IsRecord run) (id : Json) :
    identifies id run = (idOf run).equal id := by
  obtain ⟨value, hvalue⟩ := Option.isSome_iff_exists.mp
    (Table.lookup_isSome_iff.mpr hrun.identified)
  rw [identifies, get?_id, Document.member?_eq_lookup, idOf_eq, hvalue]
  rfl

/-- An integer identifies what has an integer of the same double for its identifier. -/
theorem identifies_int_iff (hrun : IsRecord run) (hid : idOf run = .int m) :
    identifies (.int n) run = true ↔ (Double.ofInt m).key = (Double.ofInt n).key := by
  rw [identifies_eq hrun, hid, Json.equal_iff_cmp_eq rfl]
  exact Int.compare_eq_eq

/-- A number identifies the runs that bear it if it is told apart from the others. -/
theorem identifies_of_toldApart (hrun : IsRecord run ∧ ∃ m, idOf run = .int m)
    (h : ToldApart n run) : identifies (.int n) run = true ↔ idOf run = .int n := by
  obtain ⟨hrecord, m, hid⟩ := hrun
  rw [identifies_int_iff hrecord hid]
  constructor
  · intro hkey
    rw [hid, h m hid hkey]
  · intro heq
    cases hid.symm.trans heq
    rfl

/-- Of two different integers, one of which has at most 53 bits, neither is taken for the other. -/
theorem toldApart_of_bits (h : n.natAbs < 2 ^ 53 ∨ ∀ m, idOf run = .int m → m.natAbs < 2 ^ 53) :
    ToldApart n run := by
  intro m hid hkey
  have hexact : m.natAbs < 2 ^ 53 ∨ n.natAbs < 2 ^ 53 := h.symm.imp_left fun h => h m hid
  rcases Int.lt_trichotomy m n with hlt | heq | hgt
  · exact absurd hkey (Int.ne_of_lt (Double.key_ofInt_lt hexact hlt))
  · exact heq
  · exact absurd hkey.symm (Int.ne_of_lt (Double.key_ofInt_lt hexact.symm hgt))

end Store

namespace Request

variable {request : Request} {settings : Settings} {catalog : Catalog} {now : Instant}
  {store : Store} {response : Response} {id : Int}

theorem needs_bare (id : Int) (catalog : Catalog) :
    ({ mode := .single id } : Request).needs catalog = ⟨{}, [], {}⟩ := by
  have hcolumns : (({ mode := .single id } : Request).needs catalog).metricColumns = [] :=
    List.filter_eq_nil_iff.mpr fun column _ => Bool.false_ne_true
  exact Needs.ext (by rw [fields_needs, forcedFields, hcolumns]; rfl) hcolumns rfl

/-- A request for a run and nothing else only chooses it. -/
theorem stages_bare (id : Int) :
    (({ mode := .single id } : Request).compile settings catalog now).stages
      = [.select (.single Field.id (.int id))] := by
  rw [stages_compile_unpaged (by nofun), needs_bare]
  rfl

/-- A request for a run and nothing else is answered with the first run that the number
identifies. -/
theorem execute_bare (hruns : store.HasRecords settings) (id : Int) :
    (({ mode := .single id } : Request).compile settings catalog now).execute store
      = .ok (.document ((store.documents settings.runs).find? (Store.identifies (.int id)))) := by
  have hchosen : selectRows (.single Field.id (.int id)) (store.documents settings.runs)
      = .ok ((store.documents settings.runs).filter (Store.identifies (.int id))) := by
    have hholds : ∀ run ∈ store.documents settings.runs,
        Filter.holds (.single Field.id (.int id)) ((fun row => row) run)
          = .ok (Store.identifies (.int id) run) := fun run hrun => by
      rw [Store.identifies_eq (hruns run hrun).1]
      exact holds_id (hruns run hrun).1 (hruns run hrun).2 id
    have hselect := selectRows_ok hholds
    rwa [List.map_id', List.map_id'] at hselect
  rw [execute_iff, stages_bare, Pipeline.run_single]
  exact ⟨_, hchosen, by rw [Response.ofRows, List.head?_filter]⟩

/-- A request for a run that no number identifies shows nothing, whatever else it asks for. -/
theorem execute_single_of_none (hruns : store.HasRecords settings)
    (hids : ((store.documents settings.runs).map idOf).Nodup) (hmode : request.mode = .single id)
    (hnone : ∀ run ∈ store.documents settings.runs, Store.identifies (.int id) run = false) :
    (request.compile settings catalog now).execute store = .ok (.document none) := by
  have hunpaged : request.mode ≠ .list := by
    rw [hmode]
    nofun
  have hpicked : (store.documents settings.runs).filter
      (fun run => (idOf run).equal (.int id)) = [] := by
    refine List.filter_eq_nil_iff.mpr fun run hrun => ?_
    rw [← Store.identifies_eq (hruns run hrun).1, hnone run hrun]
    exact Bool.false_ne_true
  refine ((joinsBy_of_records hruns hids).execute_unpaged hunpaged).mpr ⟨[], fun run => run,
    ⟨fun run => (idOf run).equal (.int id), fun _ => true, fun _ => true, fun run => run,
      verdict_chosenFilter hruns hmode, ?_⟩, ?_⟩
  · rw [hpicked]
    exact ⟨nofun, nofun, nofun, nofun, rfl⟩
  · rw [reply, hmode]
    rfl

/-- A request for a run shows at most a row of a run that the number identifies. -/
theorem rows_of_single (hruns : store.HasRecords settings)
    (hids : ((store.documents settings.runs).map idOf).Nodup) (hmode : request.mode = .single id)
    (hresponse : (request.compile settings catalog now).execute store = .ok response) :
    ∀ row ∈ response.rows, ∃ run ∈ store.documents settings.runs,
      Store.identifies (.int id) run = true ∧ ∃ base full,
        request.baseRow settings catalog now run = .ok base
        ∧ request.recordRow settings catalog (store.documents settings.metrics) base = .ok full
        ∧ row = request.stripRow catalog full := by
  have hunpaged : request.mode ≠ .list := by
    rw [hmode]
    nofun
  obtain ⟨found, r, hleaves, rfl⟩ :=
    ((joinsBy_of_records hruns hids).execute_unpaged hunpaged).mp hresponse
  intro row hrow
  have hhead : row ∈ found.map fun run => request.stripRow catalog (r run) := by
    rw [reply, hmode] at hrow
    exact List.mem_of_head? (Option.mem_toList.mp hrow)
  obtain ⟨run, hrun, rfl⟩ := List.mem_map.mp hhead
  obtain ⟨base, hbase, hfull⟩ := hleaves.exists_base run hrun
  obtain ⟨picks, passes, keeps, b, hpicks, -, -, -, -, rfl⟩ := hleaves
  obtain ⟨hmem, hpick⟩ :=
    List.mem_filter.mp (List.mem_filter.mp (List.mem_filter.mp hrun).1).1
  refine ⟨run, hmem, ?_, base, _, hbase, hfull, rfl⟩
  have hchosen := verdict_chosenFilter hruns hmode run hmem
  rw [hpicks run hmem, hpick] at hchosen
  rw [Store.identifies_eq (hruns run hmem).1, ← Except.ok.inj hchosen]

end Request

/-- A number stands for the run that bears it, in requests and in writes. -/
structure Store.Resolves (store : Store) (settings : Settings) (id : Int) : Prop where
  /-- A request for the run and nothing else is answered with it. -/
  finds : ∀ run ∈ store.documents settings.runs, idOf run = .int id → ∀ catalog now,
    (({ mode := .single id } : Request).compile settings catalog now).execute store
      = .ok (.document (some run))
  /-- Whatever is asked of the run, what is shown is a row of it. -/
  shows : ∀ (request : Request) catalog now response, request.mode = .single id →
    (request.compile settings catalog now).execute store = .ok response →
    ∀ row ∈ response.rows, ∃ run ∈ store.documents settings.runs, idOf run = .int id
      ∧ ∃ base full, request.baseRow settings catalog now run = .ok base
        ∧ request.recordRow settings catalog (store.documents settings.metrics) base = .ok full
        ∧ row = request.stripRow catalog full
  /-- Without such a run the answer is that there is none. -/
  finds_nothing : (∀ run ∈ store.documents settings.runs, idOf run ≠ .int id) →
    ∀ (request : Request) catalog now, request.mode = .single id →
      (request.compile settings catalog now).execute store = .ok (.document none)
  /-- A write replaces the run and leaves all others where they are. -/
  replaces : ∀ before run after doc,
    store.documents settings.runs = before ++ run :: after → idOf run = .int id →
    (store.upsert settings.runs (.int id) doc).documents settings.runs = before ++ doc :: after
  /-- Without such a run a write adds one. -/
  appends : ∀ doc, (∀ run ∈ store.documents settings.runs, idOf run ≠ .int id) →
    (store.upsert settings.runs (.int id) doc).documents settings.runs
      = store.documents settings.runs ++ [doc]

/-- Where a number is told apart from the identifiers of the runs, it stands for the run that bears
it. -/
theorem Store.resolves_of_toldApart {store : Store} {settings : Settings} {id : Int}
    (hruns : store.HasIntegerIds settings)
    (hids : ((store.documents settings.runs).map idOf).Nodup)
    (happart : ∀ run ∈ store.documents settings.runs, Store.ToldApart id run) :
    store.Resolves settings id := by
  have hbears : ∀ run ∈ store.documents settings.runs,
      (identifies (.int id) run = true ↔ idOf run = .int id) := fun run hrun =>
    identifies_of_toldApart (hruns run hrun) (happart run hrun)
  have hothers : ∀ run ∈ store.documents settings.runs, idOf run ≠ .int id →
      identifies (.int id) run = false := fun run hrun hne =>
    Bool.eq_false_iff.mpr fun h => hne ((hbears run hrun).mp h)
  exact {
    finds := by
      intro run hrun hid catalog now
      obtain ⟨found, hfound⟩ := Option.isSome_iff_exists.mp
        (List.find?_isSome.mpr ⟨run, hrun, (hbears run hrun).mpr hid⟩)
      have hmem := List.mem_of_find?_eq_some hfound
      have hsame : found = run := List.inj_on_of_nodup_map hids hmem hrun
        (((hbears found hmem).mp (List.find?_some hfound)).trans hid.symm)
      rw [Request.execute_bare hruns.hasRecords, hfound, hsame]
    shows := by
      intro request catalog now response hmode hresponse row hrow
      obtain ⟨run, hrun, hid, hmade⟩ :=
        Request.rows_of_single hruns.hasRecords hids hmode hresponse row hrow
      exact ⟨run, hrun, (hbears run hrun).mp hid, hmade⟩
    finds_nothing := fun hnone request catalog now hmode =>
      Request.execute_single_of_none hruns.hasRecords hids hmode fun run hrun =>
        hothers run hrun (hnone run hrun)
    replaces := by
      intro before run after doc hdocs hid
      rw [hdocs] at hids hbears hothers
      rw [documents_upsert, hdocs, replaceFirst_append (fun other hother => ?_)
        ((hbears run (by simp)).mpr hid)]
      refine hothers other (List.mem_append_left _ hother) fun heq => ?_
      rw [List.map_append, List.map_cons] at hids
      exact List.disjoint_of_nodup_append hids (List.mem_map_of_mem hother)
        (by rw [heq, hid]; exact List.mem_cons_self)
    appends := fun doc hnone => by
      rw [documents_upsert,
        replaceFirst_of_none fun run hrun => hothers run hrun (hnone run hrun)] }

/-- Integer identifiers are told apart as far as doubles do. A number stands for the first run whose
identifier rounds to the same double. So it stands for the run that bears it wherever no different
integer among the identifiers does; in particular, if it has at most 53 bits. -/
theorem integer_ids_resolve {store : Store} {settings : Settings}
    (hruns : store.HasIntegerIds settings)
    (hids : ((store.documents settings.runs).map idOf).Nodup) (id : Int) :
    ((∀ catalog now, (({ mode := .single id } : Request).compile settings catalog now).execute store
        = .ok (.document ((store.documents settings.runs).find? (Store.identifies (.int id)))))
      ∧ (∀ before run after doc, store.documents settings.runs = before ++ run :: after →
        (∀ other ∈ before, Store.identifies (.int id) other = false) →
        Store.identifies (.int id) run = true →
        (store.upsert settings.runs (.int id) doc).documents settings.runs
          = before ++ doc :: after)
      ∧ ∀ run ∈ store.documents settings.runs, ∀ n, idOf run = .int n →
        (Store.identifies (.int id) run = true ↔ (Double.ofInt n).key = (Double.ofInt id).key))
    ∧ ((∀ run ∈ store.documents settings.runs, Store.ToldApart id run) → store.Resolves settings id)
    ∧ (id.natAbs < 2 ^ 53 → ∀ run ∈ store.documents settings.runs, Store.ToldApart id run) := by
  refine ⟨⟨fun catalog now => Request.execute_bare hruns.hasRecords id, ?_, ?_⟩,
    Store.resolves_of_toldApart hruns hids,
    fun hbits run _ => Store.toldApart_of_bits (.inl hbits)⟩
  · intro before run after doc hdocs hbefore hrun
    rw [Store.documents_upsert, hdocs, Store.replaceFirst_append hbefore hrun]
  · exact fun run hrun n hid => Store.identifies_int_iff (hruns run hrun).1 hid

/-- Two runs, one of them with a number of 54 bits that is its own double. -/
theorem integer_ids_resolve_of_two :
    let run := fun id : Int => Json.obj [("_id", .int id)]
    let store : Store := { collections := [("runs", [run 7, run 9007199254740994])] }
    (({ mode := .single 9007199254740994 } : Request).compile {} {} ⟨0, 0⟩).execute store
        = .ok (.document (some (run 9007199254740994)))
      ∧ (store.upsert "runs" (.int 8) (run 8)).documents "runs"
        = [run 7, run 9007199254740994, run 8] := by
  intro run store
  have hruns : store.HasIntegerIds {} := List.forall_mem_cons.mpr
    ⟨⟨by decide, 7, rfl⟩, List.forall_mem_singleton.mpr ⟨by decide, 9007199254740994, rfl⟩⟩
  have hids : ((store.documents "runs").map idOf).Nodup := by
    have hne : idOf (run 7) ≠ idOf (run 9007199254740994) := by
      intro heq
      cases heq
    exact List.nodup_cons.mpr ⟨fun hmem => hne (List.mem_singleton.mp hmem),
      List.nodup_singleton _⟩
  have happart : ∀ doc ∈ store.documents "runs", Store.ToldApart 9007199254740994 doc := by
    refine List.forall_mem_cons.mpr ⟨Store.toldApart_of_bits (.inr ?_),
      List.forall_mem_singleton.mpr ?_⟩
    · rintro m hid
      cases hid
      decide
    · rintro m hid -
      cases hid
      rfl
  have hlarge := (integer_ids_resolve hruns hids 9007199254740994).2.1 happart
  have hsmall := (integer_ids_resolve hruns hids 8).2
  have hnone : ∀ doc ∈ [run 7, run 9007199254740994], idOf doc ≠ .int 8 := by
    refine List.forall_mem_cons.mpr ⟨?_, List.forall_mem_singleton.mpr ?_⟩
    all_goals
      intro heq
      cases heq
  exact ⟨hlarge.finds _ (by simp [store, Store.documents]) rfl {} ⟨0, 0⟩,
    (hsmall.1 (hsmall.2 (by decide))).appends (run 8) hnone⟩

/-- Two to the 53 and its successor round to one double: each is found, and overwritten, under the
number of the other. -/
theorem integer_ids_collide :
    let run := fun (id : Int) (notes : String) =>
      Json.obj [("_id", .int id), ("notes", .str notes)]
    let store : Store := { collections := [("runs", [run 9007199254740992 "old"])] }
    (({ mode := .single 9007199254740993 } : Request).compile {} {} ⟨0, 0⟩).execute store
        = .ok (.document (some (run 9007199254740992 "old")))
      ∧ (store.upsert "runs" (.int 9007199254740993) (run 9007199254740993 "new")).documents "runs"
        = [run 9007199254740993 "new"] := by
  intro run store
  have hruns : store.HasRecords {} := List.forall_mem_singleton.mpr ⟨by decide, rfl⟩
  have hlevel : Store.identifies (.int 9007199254740993) (run 9007199254740992 "old") = true := by
    refine (Store.identifies_int_iff (m := 9007199254740992) (by decide) rfl).mpr ?_
    decide
  refine ⟨?_, ?_⟩
  · rw [Request.execute_bare hruns]
    exact congrArg (fun found => Except.ok (Response.document found))
      (List.find?_cons_of_pos hlevel)
  · rw [Store.documents_upsert]
    exact if_pos hlevel

end RunTable
