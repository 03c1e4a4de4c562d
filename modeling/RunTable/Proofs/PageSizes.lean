import Mathlib.Data.List.Perm.Subperm
import RunTable.Proofs.ListPipeline

/-!
# No page is longer than its limit

A page is cut once, and behind the cut come stages that may work on rows that are no longer those of
runs. A stage gives at most as many rows as it gets, with one exception: taking lists apart. The
join takes the references of each run apart right behind an early cut, so the bound has to come from
the gathering that follows. It gathers by the text of the identifier, and all rows of one run have
one identifier, whatever it is; so there are at most as many groups as there were runs, and fewer if
runs share an identifier. Nothing has to be known of the runs for this: they need not be objects,
and an identifier may be missing.
-/

namespace RunTable

open Outcome MetricJoin

variable {collections : Collections} {stages first second : List Stage} {rows out : List Json}

/-! ## Stages that give no more than they get -/

/-- A row opens at most one bucket. -/
theorem Bucket.length_add_le {fields : List (String × Accumulator)} {key row : Json} {text : String}
    {buckets buckets' : List Bucket} (h : add fields key text row buckets = .ok buckets') :
    buckets'.length ≤ buckets.length + 1 := by
  induction buckets generalizing buckets' with
  | nil =>
      obtain ⟨start, -, hrest⟩ := bind_eq_ok.mp h
      obtain ⟨cells, -, hret⟩ := bind_eq_ok.mp hrest
      cases hret
      exact Nat.le_refl _
  | cons bucket buckets ih =>
      rw [add] at h
      split at h
      · obtain ⟨cells, -, hret⟩ := bind_eq_ok.mp h
        cases hret
        exact Nat.le_succ _
      · obtain ⟨others, hothers, hret⟩ := bind_eq_ok.mp h
        cases hret
        exact Nat.succ_le_succ (ih hothers)

theorem length_openBuckets_le {key : Expr} {fields : List (String × Accumulator)}
    {buckets : List Bucket} (h : openBuckets key fields rows = .ok buckets) :
    buckets.length ≤ rows.length := by
  induction rows using List.reverseRecOn generalizing buckets with
  | nil =>
      cases h
      exact Nat.le_refl _
  | append_singleton rows row ih =>
      rw [openBuckets, List.foldlM_append] at h
      obtain ⟨before, hbefore, hrow⟩ := bind_eq_ok.mp h
      rw [List.foldlM_cons] at hrow
      obtain ⟨after, hstep, hret⟩ := bind_eq_ok.mp hrow
      obtain ⟨k, -, hadd⟩ := bind_eq_ok.mp hstep
      cases hret
      have hold := ih hbefore
      have hnew := Bucket.length_add_le hadd
      rw [List.length_append, List.length_singleton]
      omega

theorem length_groupRows_le {key : Expr} {fields : List (String × Accumulator)}
    (h : groupRows key fields rows = .ok out) : out.length ≤ rows.length := by
  obtain ⟨buckets, hbuckets, hret⟩ := bind_eq_ok.mp h
  cases hret
  rw [List.length_map]
  exact length_openBuckets_le hbuckets

theorem length_mapM_le {f : Json → Except EvalError Json} (h : rows.mapM f = .ok out) :
    out.length ≤ rows.length :=
  Nat.le_of_eq (mapM_eq_ok.mp h).length_eq.symm

theorem length_selectRows_le {filter : Json} (h : selectRows filter rows = .ok out) :
    out.length ≤ rows.length := by
  rw [← List.map_id rows] at h
  obtain ⟨keeps, -, rfl⟩ := selectRows_eq_ok.mp h
  rw [List.length_map]
  exact List.length_filter_le _ _

/-- Whether a stage takes lists apart. -/
def Stage.unwinds : Stage → Bool
  | unwind _ _ => true
  | _ => false

theorem Stage.length_apply_le {stage : Stage} (hstage : stage.unwinds = false)
    (h : stage.apply collections rows = .ok out) : out.length ≤ rows.length := by
  cases stage with
  | select filter => exact length_selectRows_le h
  | project projection =>
      cases h
      exact Nat.le_of_eq (List.length_map _)
  | compute fields => exact length_mapM_le h
  | sort spec =>
      cases h
      exact Nat.le_of_eq (List.length_mergeSort _)
  | skip n =>
      cases h
      rw [List.length_drop]
      exact Nat.sub_le _ _
  | limit n =>
      cases h
      exact List.length_take_le' _ _
  | unwind path keepEmpty => cases hstage
  | lookup join =>
      cases h
      exact Nat.le_of_eq (List.length_map _)
  | group key fields => exact length_groupRows_le h
  | replaceRoot value => exact length_mapM_le h
  | count field =>
      cases rows with
      | nil =>
          cases h
          exact Nat.le_refl _
      | cons row rows =>
          cases h
          exact Nat.succ_le_succ (Nat.zero_le _)

namespace Pipeline

/-- Whether a pipeline gives at most as many rows as it gets. -/
def Shrinks (collections : Collections) (stages : List Stage) : Prop :=
  ∀ rows out, run collections stages rows = .ok out → out.length ≤ rows.length

theorem Shrinks.append (hfirst : Shrinks collections first)
    (hsecond : Shrinks collections second) : Shrinks collections (first ++ second) := by
  intro rows out h
  obtain ⟨between, hbetween, hout⟩ := run_append_eq_ok.mp h
  exact (hsecond between out hout).trans (hfirst rows between hbetween)

theorem shrinks_of_unwinds (h : ∀ stage ∈ stages, stage.unwinds = false) :
    Shrinks collections stages := by
  induction stages with
  | nil =>
      intro rows out hrun
      cases hrun
      exact Nat.le_refl _
  | cons stage stages ih =>
      intro rows out hrun
      obtain ⟨between, hbetween, hout⟩ := bind_eq_ok.mp hrun
      have hrest := ih (fun s hs => h s (List.mem_cons_of_mem _ hs)) between out hout
      exact hrest.trans (Stage.length_apply_le (h stage List.mem_cons_self) hbetween)

/-- Behind a cut, stages that give no more than they get leave at most a page. -/
theorem length_le_of_cut {paging : Paging} (hstages : Shrinks collections stages)
    (h : run collections (paging.cutStages ++ stages) rows = .ok out) :
    out.length ≤ paging.limit := by
  obtain ⟨page, hpage, hout⟩ := run_append_eq_ok.mp h
  rw [run_cutStages_self] at hpage
  cases hpage
  exact (hstages _ _ hout).trans (List.length_take_le _ _)

end Pipeline

/-! ## The join -/

namespace MetricJoin

variable {names : List String} {collection : String} {foreign runs : List Json}

/-- A write beside the identifier leaves it in place. -/
theorem idOf_set {field : String} (hsegments : Path.segments field = [field])
    (hfield : Field.id ≠ field) (value doc : Json) :
    idOf (Document.set field value doc) = (doc.members.lookup Field.id).getD .null := by
  rw [idOf_eq, Document.set, hsegments, Document.lookup_setAt_of_ne hfield]

/-- A document becomes one row, or rows that differ in what stands at the path. -/
theorem unwindRow_cases (path : String) (doc : Json) :
    (∃ row, unwindRow path true doc = [row]) ∨ ∃ items : List Json,
      unwindRow path true doc = items.map fun item => Document.set path item doc := by
  rw [unwindRow]
  split
  · exact .inl ⟨_, if_pos rfl⟩
  · next items _ _ => exact .inr ⟨items, rfl⟩
  all_goals
    exact .inl ⟨doc, rfl⟩

/-- All rows that are made of one document have one identifier. -/
theorem exists_idOf_joinedRows (names : List String) (collection : String) (foreign : List Json)
    (run : Json) : ∃ id, ∀ row ∈ joinedRows names collection foreign run, idOf row = id := by
  have happly : ∀ exploded : Json, idOf ((seriesLookup names collection).apply foreign exploded)
      = (exploded.members.lookup Field.id).getD .null := fun exploded =>
    idOf_set segments_hitsField (by decide) _ exploded
  rw [joinedRows]
  rcases unwindRow_cases refField (Document.set refField (refsValue names run) run) with
    ⟨exploded, hone⟩ | ⟨items, hmany⟩
  · rw [hone]
    exact ⟨_, List.forall_mem_singleton.mpr (happly exploded)⟩
  · rw [hmany]
    refine ⟨idOf (Document.set refField (refsValue names run) run), fun row hrow => ?_⟩
    obtain ⟨exploded, hexploded, rfl⟩ := List.mem_map.mp hrow
    obtain ⟨item, -, rfl⟩ := List.mem_map.mp hexploded
    rw [happly, ← idOf_eq, idOf_set segments_refField (by decide), idOf_eq]

/-- There are at most as many groups as documents, though there may be more rows. -/
theorem length_keyTexts_joinedRows_le :
    (keyTexts idOf (runs.flatMap (joinedRows names collection foreign))).length ≤ runs.length := by
  choose id hid using exists_idOf_joinedRows names collection foreign
  have hsubset : keyTexts idOf (runs.flatMap (joinedRows names collection foreign))
      ⊆ runs.map fun run => (id run).text := by
    intro text htext
    obtain ⟨row, hrow, rfl⟩ := mem_keyTexts.mp htext
    obtain ⟨run, hrun, hmem⟩ := List.mem_flatMap.mp hrow
    exact List.mem_map.mpr ⟨run, hrun, by rw [hid run row hmem]⟩
  calc (keyTexts idOf (runs.flatMap (joinedRows names collection foreign))).length
    _ ≤ (runs.map fun run => (id run).text).length := (nodup_keyTexts.subperm hsubset).length_le
    _ = runs.length := List.length_map _

/-- The join gives at most as many rows as it gets. -/
theorem shrinks_tableStages : Pipeline.Shrinks collections (tableStages names collection) := by
  intro runs out h
  rw [run_tableStages] at h
  obtain ⟨groups, hgroups, hclosing⟩ := bind_eq_ok.mp h
  have hclosed : out.length ≤ groups.length :=
    Pipeline.shrinks_of_unwinds (by decide) groups out hclosing
  have hlength := (isGroup_groupRows (fun row _ => rfl) hgroups).length_eq
  exact hclosed.trans (hlength ▸ length_keyTexts_joinedRows_le)

theorem shrinks_stages (columns : List MetricColumn) :
    Pipeline.Shrinks collections (MetricJoin.stages columns collection) :=
  shrinks_tableStages.append (Pipeline.shrinks_of_unwinds (List.forall_mem_singleton.mpr rfl))

end MetricJoin

/-! ## Pages -/

theorem Settings.clampLimit_le (settings : Settings) (limit : Nat) :
    settings.clampLimit limit ≤ limit := by
  rw [clampLimit]
  cases settings.maxLimit with
  | none => exact Nat.le_refl _
  | some cap => exact Nat.min_le_left _ _

theorem Settings.clampLimit_le_cap {settings : Settings} {cap : Nat}
    (h : settings.maxLimit = some cap) (limit : Nat) : settings.clampLimit limit ≤ cap := by
  rw [clampLimit, h]
  exact Nat.min_le_right _ _

namespace Request

variable {request : Request} {settings : Settings} {catalog : Catalog} {now : Instant}
  {store : Store} {response : Response}

theorem shrinks_joinStages (request : Request) (settings : Settings) (catalog : Catalog) :
    Pipeline.Shrinks collections (request.joinStages settings catalog) := by
  have hresort : ∀ stage ∈ (request.paging settings catalog).resortStage?.toList,
      stage.unwinds = false := by
    rw [Paging.resortStage?]
    split <;> simp [Stage.unwinds]
  rw [joinStages]
  split
  · exact (shrinks_stages _).append (Pipeline.shrinks_of_unwinds hresort)
  · exact Pipeline.shrinks_of_unwinds (by simp)

theorem placement_cases (hmode : request.mode = .list) (settings : Settings) (catalog : Catalog) :
    (request.paging settings catalog).placement = .early
      ∨ (request.paging settings catalog).placement = .late := by
  rw [placement_paging hmode]
  split
  · exact .inr rfl
  · exact .inl rfl

/-- The rows of a list are cut once, and no stage behind the cut adds to them. -/
theorem length_rows_le (hmode : request.mode = .list)
    (h : Pipeline.run collections (request.compile settings catalog now).stages rows = .ok out) :
    out.length ≤ request.pageSize settings := by
  have hfilter : Pipeline.Shrinks collections (if request.filterDeferred catalog then
      (request.filter.map Stage.select).toList else []) := by
    refine Pipeline.shrinks_of_unwinds ?_
    split
    · cases request.filter <;> simp [Stage.unwinds]
    · simp
  have hstrip : ∀ helpers, Pipeline.Shrinks collections
      ((request.needs catalog).stripStage? helpers).toList := by
    intro helpers
    refine Pipeline.shrinks_of_unwinds ?_
    rw [Needs.stripStage?]
    split <;> simp [Stage.unwinds]
  rw [stages_compile hmode] at h
  obtain ⟨based, -, h⟩ := Pipeline.run_append_eq_ok.mp h
  obtain ⟨kept, -, h⟩ := Pipeline.run_append_eq_ok.mp h
  rcases placement_cases hmode settings catalog with hplace | hplace
  · have hearly : (request.paging settings catalog).earlyStages = _ := if_pos hplace
    have hlate : (request.paging settings catalog).lateStages = [] := if_neg (by simp [hplace])
    rw [hearly, hlate] at h
    -- behind an early cut stand the join, perhaps a filter, and the strip
    exact Pipeline.length_le_of_cut ((shrinks_joinStages request settings catalog).append
      (hfilter.append (hstrip _))) h
  · have hearly : (request.paging settings catalog).earlyStages = [] := if_neg (by simp [hplace])
    have hlate : (request.paging settings catalog).lateStages = _ := if_pos hplace
    rw [hearly, hlate, List.nil_append] at h
    -- behind a late cut stands the strip alone
    obtain ⟨joined, -, h⟩ := Pipeline.run_append_eq_ok.mp h
    obtain ⟨passing, -, h⟩ := Pipeline.run_append_eq_ok.mp h
    exact Pipeline.length_le_of_cut (hstrip _) h

/-- A list is never longer than its limit. Whatever is stored, and whatever a request selects,
filters, sorts and skips, a page has at most as many rows as were asked for, or as many as the
default if none or zero were asked for; and in either case no more than the greatest page size, if
there is one. -/
theorem page_within_limit (hmode : request.mode = .list)
    (h : (request.compile settings catalog now).execute store = .ok response) :
    ∃ rows, response = .page rows
      ∧ (∀ limit, request.limit = some limit → 0 < limit → rows.length ≤ limit)
      ∧ (request.limit = none ∨ request.limit = some 0 → rows.length ≤ settings.defaultLimit)
      ∧ ∀ cap, settings.maxLimit = some cap → rows.length ≤ cap := by
  obtain ⟨rows, hrun, hresponse⟩ := execute_iff.mp h
  have hsize := length_rows_le hmode hrun
  have hwanted := hsize.trans (Settings.clampLimit_le settings _)
  refine ⟨rows, by rw [hresponse, hmode]; rfl, fun limit hlimit hpos => ?_, fun hlimit => ?_,
    fun cap hcap => hsize.trans (Settings.clampLimit_le_cap hcap _)⟩
  · have hkept : request.limit.filter (0 < ·) = some limit := by simp [hlimit, hpos]
    rwa [hkept] at hwanted
  · have hdropped : request.limit.filter (0 < ·) = none := by
      rcases hlimit with hlimit | hlimit <;> simp [hlimit]
    rwa [hdropped] at hwanted

/-- Of three runs, of which one has no identifier and one a null, all could be shown by the request
and two by the settings. The page is cut before the join, where each run becomes two rows. -/
theorem page_within_limit_of_three :
    let refs : Json := .single "metrics" (.arr [.obj [("name", .str "loss"), ("id", .int 7)],
      .obj [("name", .str "loss"), ("id", .int 8)]])
    let first := Json.obj [("_id", .int 1), ("info", refs), ("rate", .int 5)]
    let second := Json.obj [("info", refs), ("rate", .int 3)]
    let third := Json.obj [("_id", .null), ("info", refs), ("rate", .int 4)]
    let store : Store := { collections := [("runs", [first, second, third])] }
    let catalog : Catalog := { metricColumns := [⟨"best", "loss", .least, none⟩] }
    let request : Request := { select := ["best"], sortBy := some "rate", limit := some 3 }
    let settings : Settings := { maxLimit := some 2 }
    (request.paging settings catalog).placement = .early
    ∧ (joinedRows ["loss"] "metrics" [] first).length = 2
    ∧ ∃ rows, (request.compile settings catalog ⟨0, 0⟩).execute store = .ok (.page rows)
      ∧ rows.length ≤ 2 := by
  intro refs first second third store catalog request settings
  have hsort : (request.paging settings catalog).spec.sort
      ([first, second, third].map (request.shownRow catalog))
      = [first, third, second].map (request.shownRow catalog) :=
    SortSpec.sort_of_perm (.map _ (.cons _ (.swap _ _ _))) (by decide)
  have hbase : Pipeline.run store.documents ((request.needs catalog).inclusionStage?.toList
      ++ ((request.needs catalog).derived.stage? ⟨0, 0⟩ settings.deadAfterMillis).toList)
      [first, second, third] = .ok ([first, second, third].map (request.shownRow catalog)) := by
    rw [run_baseStages]
    exact mapM_ok fun _ _ => rfl
  have hcut : Pipeline.run store.documents (request.paging settings catalog).earlyStages
      ([first, second, third].map (request.shownRow catalog))
      = .ok ([first, third].map (request.shownRow catalog)) :=
    (run_cutStages_self _).trans (congrArg (fun rows => Except.ok (rows.take 2)) hsort)
  obtain ⟨joined, hjoined⟩ : ∃ joined, Pipeline.run store.documents
      (request.joinStages settings catalog) ([first, third].map (request.shownRow catalog))
      = .ok joined := by
    subst settings request catalog store third first refs
    exact ⟨_, rfl⟩
  have hrun : ∃ rows, Pipeline.run store.documents
      (request.compile settings catalog ⟨0, 0⟩).stages (store.documents "runs") = .ok rows := by
    rw [stages_compile rfl]
    exact ⟨_, Pipeline.run_append_eq_ok.mpr ⟨_, hbase, Pipeline.run_append_eq_ok.mpr ⟨_, rfl,
      Pipeline.run_append_eq_ok.mpr ⟨_, hcut, Pipeline.run_append_eq_ok.mpr ⟨_, hjoined,
        Pipeline.run_append_eq_ok.mpr ⟨_, rfl, Pipeline.run_append_eq_ok.mpr
          ⟨_, rfl, run_stripStage _⟩⟩⟩⟩⟩⟩⟩
  obtain ⟨rows, hrows⟩ := hrun
  have hanswer := execute_iff.mpr ⟨rows, hrows, rfl⟩
  obtain ⟨page, hpage, -, -, hcap⟩ := page_within_limit rfl hanswer
  exact ⟨rfl, rfl, page, hpage ▸ hanswer, hcap 2 rfl⟩

end Request

end RunTable
