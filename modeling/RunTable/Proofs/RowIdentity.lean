import Mathlib.Data.List.Pairwise
import RunTable.Proofs.ShownRows

/-!
# Which rows carry the identifier of their run

Every row that a projection reads has the identifier, and no join, derived column or metric column
touches it where no column is named so. What can take it away is the strip. The identifier is read
without being selected, so it is no field that is shown; and a field that was only read for a filter
or a sort is stripped with all of its surroundings that hold no field that is shown. A field below
the identifier has the identifier for its surroundings.

So a row has the identifier of its run exactly if the identifier itself is not among the stripped
paths, and it is not if no other field of the filter or the sort begins with it. Helper fields in
the runs are of no consequence here, so runs are any objects with scalar identifiers.
-/

namespace RunTable

open Outcome MetricJoin

/-- The first segment of a path that is not empty. -/
def Path.firstName (path : String) : Option String := (segments path).find? (· != "")

/-- Whether no metric column is named at or below the identifier. -/
def Catalog.SparesId (catalog : Catalog) : Prop :=
  ∀ column ∈ catalog.metricColumns, Path.covers Field.id column.name = false

/-- Whether the runs are objects with scalar identifiers. -/
def Store.HasRecords (store : Store) (settings : Settings) : Prop :=
  ∀ run ∈ store.documents settings.runs, IsRecord run ∧ (idOf run).isScalar = true

/-! ## Identifiers of their own -/

section

variable {runs others : List Json}

/-- Whether no two documents have identifiers that are level. -/
def UniqueIds (docs : List Json) : Prop :=
  docs.Pairwise fun a b => (idOf a).cmp (idOf b) ≠ .eq

namespace UniqueIds

theorem eq_of_cmp (h : UniqueIds runs) {a b : Json} (ha : a ∈ runs) (hb : b ∈ runs)
    (hlevel : (idOf a).cmp (idOf b) = .eq) : a = b := by
  have hsymm : Std.Symm fun a b : Json => (idOf a).cmp (idOf b) ≠ .eq :=
    ⟨fun a b hne heq => hne (Std.OrientedCmp.eq_comm.mp heq)⟩
  by_contra hne
  exact List.Pairwise.forall h ha hb hne hlevel

theorem perm (h : UniqueIds runs) (hperm : runs.Perm others) : UniqueIds others :=
  hperm.pairwise h fun heq hlevel => heq (Std.OrientedCmp.eq_comm.mp hlevel)

theorem filter (h : UniqueIds runs) (p : Json → Bool) : UniqueIds (runs.filter p) :=
  List.Pairwise.sublist List.filter_sublist h

theorem nodup_ids (h : UniqueIds runs) : (runs.map idOf).Nodup := by
  refine List.pairwise_map.mpr (h.imp fun {a b} hne => ?_)
  intro (heq : idOf a = idOf b)
  exact hne (heq ▸ Std.ReflCmp.compare_self)

/-- At most one of some runs has an identifier that equals a value. -/
theorem eq_of_equal (h : UniqueIds runs) (hscalar : ∀ run ∈ runs, (idOf run).isScalar = true)
    {a b id : Json} (ha : a ∈ runs) (hb : b ∈ runs) (haid : (idOf a).equal id = true)
    (hbid : (idOf b).equal id = true) : a = b :=
  h.eq_of_cmp ha hb (Json.cmp_eq_of_equal (hscalar a ha) (hscalar b hb) haid hbid)

end UniqueIds

/-- Scalar identifiers are not level exactly if they are not equal. -/
theorem uniqueIds_iff (hscalar : ∀ run ∈ runs, (idOf run).isScalar = true) :
    UniqueIds runs ↔ runs.Pairwise fun a b => (idOf a).equal (idOf b) = false := by
  refine List.Pairwise.iff_of_mem fun {a b} ha _ => ?_
  show (idOf a).cmp (idOf b) ≠ .eq ↔ (idOf a).equal (idOf b) = false
  rw [Ne, ← Json.equal_iff_cmp_eq (hscalar a ha), Bool.not_eq_true]

end

/-! ## Removals at a scalar -/

namespace Document

variable {path name : String} {paths : List String} {doc : Json}

theorem lookup_remove_of_isScalar (hdoc : (Table.names doc.members).Nodup)
    (hscalar : ∀ value, doc.members.lookup name = some value → value.isScalar = true) :
    (Table.names (remove path doc).members).Nodup
      ∧ (remove path doc).members.lookup name
        = if Path.segments path = [name] then none else doc.members.lookup name := by
  by_cases hhead : (Path.segments path).head? = some name
  · obtain ⟨rest, hsegs⟩ : ∃ rest, Path.segments path = name :: rest := by
      obtain ⟨s, rest, hsegs⟩ := List.exists_cons_of_ne_nil (Path.segments_ne_nil path)
      rw [hsegs] at hhead
      cases hhead
      exact ⟨rest, hsegs⟩
    have hmember := member?_eq_lookup name doc
    rw [remove, remove?, hsegs]
    cases rest with
    | nil =>
        rw [removeAt?, hmember, if_pos rfl]
        cases hvalue : doc.members.lookup name with
        | none => exact ⟨hdoc, hvalue⟩
        | some value => exact ⟨Table.nodup_names_erase hdoc, Table.lookup_erase_self hdoc⟩
    | cons t rest =>
        -- nothing is found below a scalar
        have hnone : removeAt? (name :: t :: rest) doc = none := by
          rw [removeAt?.eq_3 _ _ _ (by simp), hmember]
          cases hvalue : doc.members.lookup name with
          | none => rfl
          | some value =>
              have hvalueScalar := hscalar value hvalue
              have hbelow : removeAt? (t :: rest) value = none := by
                cases value <;> first | (cases rest <;> rfl) | cases hvalueScalar
              simp only [hbelow, Option.map_none]
        rw [hnone, if_neg (by simp)]
        exact ⟨hdoc, rfl⟩
  · have hne : Path.segments path ≠ [name] := fun hsegs => hhead (by rw [hsegs]; rfl)
    rw [if_neg hne]
    exact remove_spares hdoc hhead

theorem lookup_removeAll_of_isScalar (hdoc : (Table.names doc.members).Nodup)
    (hscalar : ∀ value, doc.members.lookup name = some value → value.isScalar = true) :
    (removeAll paths doc).members.lookup name
      = if [name] ∈ paths.map Path.segments then none else doc.members.lookup name := by
  induction paths generalizing doc with
  | nil => rfl
  | cons path paths ih =>
      obtain ⟨hnames, hlookup⟩ := lookup_remove_of_isScalar hdoc hscalar
      have hrest : ∀ value, (remove path doc).members.lookup name = some value →
          value.isScalar = true := by
        intro value hvalue
        rw [hlookup] at hvalue
        split at hvalue
        · cases hvalue
        · exact hscalar value hvalue
      show (removeAll paths (remove path doc)).members.lookup name = _
      rw [ih hnames hrest, hlookup]
      by_cases hpath : Path.segments path = [name]
      · simp [hpath]
      · have hne : [name] ≠ Path.segments path := Ne.symm hpath
        simp [hpath, hne]

end Document

/-- A projection that drops paths takes a scalar member away exactly if its name is one of them. -/
theorem Projection.lookup_apply_drop_of_isScalar {paths : NameSet} {name : String} {doc : Json}
    (hdoc : (Table.names doc.members).Nodup) (hname : Path.segments name = [name])
    (hscalar : ∀ value, doc.members.lookup name = some value → value.isScalar = true) :
    (name ∈ paths → ((drop paths).apply doc).members.lookup name = none)
      ∧ (name ∉ paths →
        ((drop paths).apply doc).members.lookup name = doc.members.lookup name) := by
  have hroot : [name] ∈ paths.roots.names.map Path.segments ↔ name ∈ paths := by
    rw [List.mem_map]
    constructor
    · rintro ⟨path, hpath, hsegs⟩
      rw [← Path.segments_injective (hsegs.trans hname.symm)]
      exact (NameSet.mem_roots.mp hpath).1
    · intro hmem
      refine ⟨name, NameSet.mem_roots.mpr ⟨hmem, fun other _ => ?_⟩, hname⟩
      -- nothing stands above a path of one segment
      rw [Bool.eq_false_iff]
      intro habove
      obtain ⟨hpre, hne⟩ := Path.isAncestor_iff.mp habove
      rw [hname] at hpre
      rcases List.prefix_cons_iff.mp hpre with hnil | ⟨rest, hrest, hpre⟩
      · exact Path.segments_ne_nil other hnil
      · rw [List.prefix_nil.mp hpre, ← hname] at hrest
        exact hne (Path.segments_injective hrest)
  rw [apply_drop, Document.lookup_removeAll_of_isScalar hdoc hscalar]
  exact ⟨fun hmem => if_pos (hroot.mpr hmem), fun hmem => if_neg (mt hroot.mp hmem)⟩

namespace Request

variable {request : Request} {settings : Settings} {catalog : Catalog} {now : Instant}
  {store : Store} {foreign : List Json} {run base full : Json} {field path : String}
  {response : Response}

/-- If the identifier is stripped, the request filters or sorts by another field that begins with
it, and selects something. -/
theorem exists_field_of_id_stripped (h : Field.id ∈ request.strippedPaths catalog) :
    request.selection catalog ≠ []
      ∧ ∃ field ∈ request.decidingFields catalog, field ≠ Field.id
        ∧ Path.firstName field = some Field.id := by
  rcases mem_strippedPaths.mp h with hstrip | ⟨-, htable⟩
  · refine ⟨fun hall => ?_, ?_⟩
    · exact absurd (eq_tableField_of_selects_all hall h) (by decide)
    · rw [FieldSets.stripPaths, NameSet.mem_ofList] at hstrip
      obtain ⟨field, hfield, hwide⟩ := List.mem_map.mp hstrip
      obtain ⟨hforced, hne⟩ := mem_forced_of_stripped hfield
      have hfirst : Path.firstName field = some Field.id := by
        have hsegs : ∀ s ∈ Path.segments field, Path.segments s = [s] :=
          fun _ => Path.segments_of_mem
        rcases FieldSets.head?_widen_or hsegs with hempty | hhead
        · rw [hwide] at hempty
          exact absurd hempty (by decide)
        · rw [hwide, segments_id] at hhead
          exact hhead.symm
      refine ⟨field, ?_, hne, hfirst⟩
      rcases hforced with hdeciding | hsupport
      · exact hdeciding
      · have hsupports : ∀ field ∈ supportFields, Path.firstName field ≠ some Field.id := by decide
        exact absurd hfirst (hsupports field hsupport)
  · exact absurd htable (by decide)

theorem head?_column_ne_id (h : catalog.SparesId) {column : MetricColumn}
    (hcolumn : column ∈ (request.needs catalog).metricColumns) :
    (Path.segments column.name).head? ≠ some Field.id :=
  Path.head?_ne_of_not_covers segments_id (h column (mem_metricColumns.mp hcolumn).1)

theorem isRecord_baseRow (h : store.HasRecords settings)
    (hrun : run ∈ store.documents settings.runs)
    (hbase : request.baseRow settings catalog now run = .ok base) :
    IsRecord base ∧ base.members.lookup Field.id = run.members.lookup Field.id := by
  obtain ⟨hrecord, hscalar⟩ := h run hrun
  have hkeeps : request.KeepsId catalog run := .inl hscalar
  obtain ⟨hbaseRecord, hid⟩ := hkeeps.isRecord_baseRow hrecord hbase
  rw [get?_id, get?_id, Document.member?_eq_lookup, Document.member?_eq_lookup] at hid
  exact ⟨hbaseRecord, hid⟩

theorem isRecord_recordRow (hcolumns : catalog.SparesId) (hbase : IsRecord base)
    (hfull : request.recordRow settings catalog foreign base = .ok full) :
    IsRecord full ∧ full.members.lookup Field.id = base.members.lookup Field.id := by
  rw [recordRow] at hfull
  split at hfull
  · exact hbase.joinedRow (fun column hcolumn => head?_column_ne_id hcolumns hcolumn) hfull
  · cases hfull
    exact ⟨hbase, rfl⟩

theorem idOf_baseRow (h : store.HasRecords settings) (hrun : run ∈ store.documents settings.runs)
    (hbase : request.baseRow settings catalog now run = .ok base) :
    IsRecord base ∧ idOf base = idOf run :=
  (isRecord_baseRow h hrun hbase).imp_right fun hid => by rw [idOf_eq, idOf_eq, hid]

theorem idOf_recordRow (hcolumns : catalog.SparesId) (hbase : IsRecord base)
    (hfull : request.recordRow settings catalog foreign base = .ok full) :
    IsRecord full ∧ idOf full = idOf base :=
  (isRecord_recordRow hcolumns hbase hfull).imp_right fun hid => by rw [idOf_eq, idOf_eq, hid]

/-- Wherever a list request looks at a row, it sees the identifier of the run. -/
theorem HasRows.idOf_row {b r : Json → Json} {keeps : Json → Bool}
    (h : request.HasRows settings catalog now store
      (request.recordRow settings catalog (store.documents settings.metrics)) b r keeps)
    (hruns : store.HasRecords settings) (hcolumns : catalog.SparesId)
    (hrun : run ∈ store.documents settings.runs) {late : Bool}
    (hreach : late = true → request.Reaches settings catalog store b keeps run) :
    IsRecord ((if late then r else b) run) ∧ idOf ((if late then r else b) run) = idOf run := by
  obtain ⟨hbase, hid⟩ := idOf_baseRow hruns hrun (h.base run hrun)
  cases late with
  | true =>
      obtain ⟨hfull, hfullId⟩ := idOf_recordRow hcolumns hbase (h.joins run hrun (hreach rfl))
      exact ⟨hfull, hfullId.trans hid⟩
  | false => exact ⟨hbase, hid⟩

theorem holds_id (hrun : IsRecord run) (hscalar : (idOf run).isScalar = true) (id : Int) :
    Filter.holds (.single Field.id (.int id)) run = .ok ((idOf run).equal (.int id)) := by
  obtain ⟨value, hvalue⟩ := Option.isSome_iff_exists.mp
    (Table.lookup_isSome_iff.mpr hrun.identified)
  have hid : idOf run = value := by rw [idOf_eq, hvalue, Option.getD_some]
  have hcandidates : Document.candidates Field.id run = [value] := by
    rw [Document.candidates, segments_id, hrun.eq_obj, Document.candidatesAt_obj, hvalue]
    rw [hid] at hscalar
    cases value <;> first | rfl | cases hscalar
  have hfield : Filter.fieldHolds (.int id) run Field.id = .ok (value.equal (.int id)) := by
    rw [Json.int, Filter.fieldHolds, hcandidates]
    · simp [Filter.equalsAny, Json.isNull]
    · intro operators hoperators
      cases hoperators
  have hoperator : Filter.isOperator Field.id = false := by decide
  rw [Json.single, Filter.holds, Filter.clausesHold.eq_def]
  simp only [hoperator, Bool.false_eq_true, if_false, hfield, ok_bind, hid, Filter.clausesHold]
  cases value.equal (.int id) <;> rfl

theorem joinsBy_of_records (h : store.HasRecords settings)
    (hids : ((store.documents settings.runs).map idOf).Nodup) :
    request.JoinsBy settings catalog now store
      (request.recordRow settings catalog (store.documents settings.metrics)) :=
  joinsBy_recordRow hids fun _ hrun _ hbase =>
    (idOf_baseRow h hrun hbase).imp_left IsRecord.nodup

/-- What a strip leaves of a scalar member: all of it, or nothing if its name is stripped. -/
theorem lookup_stripRow_of_isScalar (hname : Path.segments name = [name])
    (hfull : (Table.names full.members).Nodup)
    (hscalar : ∀ value, full.members.lookup name = some value → value.isScalar = true) :
    (request.stripRow catalog full).members.lookup name
      = if name ∈ request.strippedPaths catalog then none else full.members.lookup name := by
  rw [stripRow]
  split
  · next hempty =>
      rw [if_neg]
      intro (hmem : name ∈ (request.strippedPaths catalog).names)
      rw [List.isEmpty_iff.mp hempty] at hmem
      cases hmem
  · obtain ⟨hgone, hkept⟩ : (name ∈ request.strippedPaths catalog → _) ∧ _ :=
      Projection.lookup_apply_drop_of_isScalar hfull hname hscalar
    split
    · next hmem => exact hgone hmem
    · next hmem => exact hkept hmem

/-- What is shown of a row has its scalar identifier, unless that is stripped. -/
theorem lookup_id_stripRow (hfull : IsRecord full) (hscalar : (idOf full).isScalar = true) :
    (Field.id ∈ request.strippedPaths catalog →
        (request.stripRow catalog full).members.lookup Field.id = none)
      ∧ (Field.id ∉ request.strippedPaths catalog →
        (request.stripRow catalog full).members.lookup Field.id
          = full.members.lookup Field.id) := by
  have hvalue : ∀ value, full.members.lookup Field.id = some value → value.isScalar = true := by
    intro value hvalue
    rwa [idOf_eq, hvalue] at hscalar
  refine ⟨fun hmem => ?_, fun hmem => ?_⟩
  · rw [lookup_stripRow_of_isScalar segments_id hfull.nodup hvalue, if_pos hmem]
  · rw [lookup_stripRow_of_isScalar segments_id hfull.nodup hvalue, if_neg hmem]

/-- Rows carry the identifier of their run. Each row of a response is made of a run of its own and
has its identifier, unless the identifier is among the stripped paths, in which case it has none;
and that takes a field of the filter or the sort, other than the identifier, that begins with it. -/
theorem rows_carry_ids (hruns : store.HasRecords settings)
    (hids : ((store.documents settings.runs).map idOf).Nodup) (hcolumns : catalog.SparesId)
    (hmode : request.mode ≠ .count)
    (hresponse : (request.compile settings catalog now).execute store = .ok response) :
    (∃ found : List Json, found.Nodup ∧ (∀ run ∈ found, run ∈ store.documents settings.runs)
      ∧ List.Forall₂ (fun run row =>
          (∃ base full, request.baseRow settings catalog now run = .ok base
            ∧ request.recordRow settings catalog (store.documents settings.metrics) base = .ok full
            ∧ row = request.stripRow catalog full)
          ∧ ∃ id, run.member? Field.id = some id
            ∧ (Field.id ∉ request.strippedPaths catalog → row.member? Field.id = some id)
            ∧ (Field.id ∈ request.strippedPaths catalog → row.member? Field.id = none))
        found response.rows)
      ∧ (Field.id ∈ request.strippedPaths catalog → request.selection catalog ≠ []
        ∧ ∃ field ∈ request.decidingFields catalog, field ≠ Field.id
          ∧ Path.firstName field = some Field.id) := by
  refine ⟨?_, exists_field_of_id_stripped⟩
  obtain ⟨found, hnodup, hmem, hrows⟩ :=
    (joinsBy_of_records hruns hids).rows_of_execute hmode hresponse
  refine ⟨found, hnodup, hmem, forall₂_imp_of_mem hrows fun run hfound row hrow => ?_⟩
  obtain ⟨base, full, hbase, hfull, rfl⟩ := hrow
  have hrun := hmem run hfound
  obtain ⟨hrecord, hscalar⟩ := hruns run hrun
  obtain ⟨hbaseRecord, hbaseId⟩ := isRecord_baseRow hruns hrun hbase
  obtain ⟨hfullRecord, hfullId⟩ := isRecord_recordRow hcolumns hbaseRecord hfull
  have hid := hfullId.trans hbaseId
  have hfullScalar : (idOf full).isScalar = true := by
    rwa [idOf_eq, hid, ← idOf_eq]
  obtain ⟨hgone, hkept⟩ : (Field.id ∈ request.strippedPaths catalog → _) ∧ _ :=
    lookup_id_stripRow hfullRecord hfullScalar
  obtain ⟨id, hrunId⟩ := Option.isSome_iff_exists.mp
    (Table.lookup_isSome_iff.mpr hrecord.identified)
  simp only [Document.member?_eq_lookup]
  refine ⟨⟨base, full, hbase, hfull, rfl⟩, id, hrunId, fun hnot => ?_, hgone⟩
  rw [hkept hnot, hid, hrunId]

/-- A run with a member named like the table of series, by which the page is sorted. -/
theorem rows_carry_ids_of_one :
    let reference := Json.obj [("name", .str "loss"), ("id", .int 7)]
    let run := Json.obj [("_id", .int 1), ("config", .obj [("rate", .int 30), ("size", .int 8)]),
      ("__metrics", .str "old"), ("info", .single "metrics" (.arr [reference]))]
    let row := Json.obj [("_id", .int 1), ("best", .int 4), ("config", .single "rate" (.int 30))]
    let series := Json.obj [("_id", .int 7), ("name", .str "loss"), ("values", .arr [.int 4])]
    let store : Store := { collections := [("runs", [run]), ("metrics", [series])] }
    let catalog : Catalog := { metricColumns := [⟨"best", "loss", .least, none⟩] }
    let request : Request := {
      select := ["config.rate", "best"], filter := some (.single "config.size" (.int 8))
      sortBy := some "__metrics" }
    (request.compile {} catalog ⟨0, 0⟩).execute store = .ok (.page [row])
      ∧ row.member? Field.id = run.member? Field.id := by
  intro reference run row series store catalog request
  have hruns : store.HasRecords {} := by
    intro run hrun
    rw [List.mem_singleton.mp hrun]
    exact ⟨by decide, rfl⟩
  have hids : ((store.documents "runs").map idOf).Nodup := List.nodup_singleton _
  have hcolumns : catalog.SparesId := by
    intro column hcolumn
    rw [List.mem_singleton.mp hcolumn]
    decide
  let base := Json.obj [("_id", .int 1), ("__metrics", .str "old"),
    ("config", .obj [("rate", .int 30), ("size", .int 8)]),
    ("info", .single "metrics" (.arr [reference]))]
  let full := Json.obj [("_id", .int 1), ("__metrics", .single "loss" series),
    ("config", .obj [("rate", .int 30), ("size", .int 8)]),
    ("info", .single "metrics" (.arr [reference])), ("best", .int 4)]
  have hbase : request.baseRow {} catalog ⟨0, 0⟩ run = .ok base := by
    subst catalog request run base reference
    rfl
  have hfull : request.recordRow {} catalog [series] base = .ok full := by
    subst catalog request base full series reference
    rfl
  have hrow : request.stripRow catalog full = row := by
    subst catalog request full row series reference
    rfl
  have hpage : (request.compile {} catalog ⟨0, 0⟩).execute store = .ok (.page [row]) := by
    rw [← hrow]
    exact (joinsBy_of_records hruns hids).execute_only rfl (by decide) (by decide) rfl (by decide)
      rfl hbase rfl hfull
  obtain ⟨⟨found, -, hmem, hshown⟩, -⟩ := rows_carry_ids hruns hids hcolumns (by decide) hpage
  obtain ⟨other, others, ⟨-, id, hrun, hkept, -⟩, -, rfl⟩ := List.forall₂_cons_right_iff.mp hshown
  obtain rfl : other = run := List.mem_singleton.mp (hmem other List.mem_cons_self)
  exact ⟨hpage, by rw [hkept (by decide), hrun]⟩

/-- Fields that begin with the identifier take it away when they are stripped, even where it is
selected. -/
theorem rows_lose_ids :
    let run := Json.obj [("_id", .int 1), ("config", .int 2)]
    let store : Store := { collections := [("runs", [run])] }
    let answers := fun (select : List String) (sortBy : String) (row : Json) =>
      let request : Request := { select, sortBy := some sortBy }
      (request.compile {} {} ⟨0, 0⟩).execute store = .ok (.page [row])
    answers ["config"] "_id.x" (.obj [("config", .int 2)])
      ∧ answers ["_id", ".x"] "._id" (.obj []) := by
  intro run store answers
  have hruns : store.HasRecords {} := by
    intro run hrun
    rw [List.mem_singleton.mp hrun]
    exact ⟨by decide, rfl⟩
  have hids : ((store.documents "runs").map idOf).Nodup := List.nodup_singleton _
  have hanswers : ∀ select sortBy base row,
      ({ select, sortBy := some sortBy } : Request).baseRow {} {} ⟨0, 0⟩ run = .ok base →
      ({ select, sortBy := some sortBy } : Request).stripRow {} base = row →
      answers select sortBy row := by
    intro select sortBy base row hbase hrow
    have hlimit : 0 < ({ select, sortBy := some sortBy } : Request).pageSize {} :=
      Nat.succ_pos 199
    rw [← hrow]
    exact (joinsBy_of_records hruns hids).execute_only rfl rfl rfl rfl hlimit rfl hbase rfl rfl
  exact ⟨hanswers _ _ run _ rfl rfl, hanswers _ _ (.obj [("_id", .int 1)]) _ rfl rfl⟩

end Request

end RunTable
