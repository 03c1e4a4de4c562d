import RunTable.Proofs.StoredRuns
import RunTable.Record.Metric

/-!
# Stored records are read as they were built

A record is built step by step and stored as one document. The document has other names than the
record and another nesting, leaves out times that are not known, keeps pairs as arrays and instants
as texts. Reading it gives the record back: each part has a decoder that undoes its encoding, and
the document holds the parts under names of their own.

Three things have to hold of a record for that, and every step of building it keeps them: its
integers fit the words they are read as, and its instants are read from their texts. A derived
status is never among what is stored, whatever the steps.
-/

namespace RunTable

/-! ## Parts -/

namespace Decode

variable {α : Type} {decode : Json → Option α} {encode : α → Json}

theorem list?_map {xs : List α} (h : ∀ x ∈ xs, decode (encode x) = some x) :
    list? decode (.arr (xs.map encode)) = some xs := by
  rw [list?]
  induction xs with
  | nil => rfl
  | cons x xs ih =>
      obtain ⟨hx, hxs⟩ := List.forall_mem_cons.mp h
      rw [List.map_cons, List.mapM_cons, hx, ih hxs]
      rfl

end Decode

/-- Whether an instant is read from the text that it is stored as. -/
def Instant.ReadsBack (t : Instant) : Prop := ofRelaxedText? t.exactText = some t

instance (t : Instant) : Decidable t.ReadsBack :=
  inferInstanceAs (Decidable (_ = _))

theorem Instant.ofJson?_toJson {t : Instant} (h : t.ReadsBack) : ofJson? t.toJson = some t := by
  rw [ReadsBack] at h
  rw [ofJson?, toJson, Json.str?, Option.bind_some, h]

theorem Instant.optional_toJson {time : Option Instant} (h : ∀ t ∈ time, t.ReadsBack) :
    Decode.optional ofJson? (time.map toJson) = some time := by
  cases time with
  | none => rfl
  | some t =>
      rw [Option.map_some, Decode.optional, ofJson?_toJson (h t rfl)]
      · rfl
      · exact nofun

theorem MetricRef.ofJson?_toJson (ref : MetricRef) : ofJson? ref.toJson = some ref := rfl

theorem Artifact.ofJson?_toJson (artifact : Artifact) :
    ofJson? artifact.toJson = some artifact := rfl

theorem Status.ofJson?_name (status : Status) : ofJson? (.str status.name) = some status :=
  ofName?_name status

/-! ## Runs -/

namespace Run

variable {run : Run}

/-- A step of building a run. -/
inductive Step where
  | status (status : Status)
  | config (value : Json)
  | experimentName (name : String)
  | source (name fileId : String)
  | startTime (time : Instant)
  | heartbeat (time : Instant)
  | stopTime (time : Instant)
  | metric (id name : String)
  | artifact (name fileId : String)
  | tag (tag : String)
  | notes (notes : String)

/-- The run with one step more. -/
def step (run : Run) : Step → Run
  | .status status => run.withStatus status
  | .config value => { run with config := value }
  | .experimentName name => { run with experimentName := name }
  | .source name fileId => run.addSource name fileId
  | .startTime time => { run with startTime := some time }
  | .heartbeat time => { run with heartbeat := some time }
  | .stopTime time => { run with stopTime := some time }
  | .metric id name => run.addMetric id name
  | .artifact name fileId => run.addArtifact name fileId
  | .tag tag => run.addTag tag
  | .notes notes => { run with notes := notes }

/-- The run with a number that some steps build. -/
def build (id : Int) (steps : List Step) : Run := steps.foldl step { id }

/-- The instant that a step brings in, if it does. -/
def Step.time? : Step → Option Instant
  | .startTime time => some time
  | .heartbeat time => some time
  | .stopTime time => some time
  | _ => none

/-- Whether the document of a run can be read: its number fits its word, and its times are read from
their texts. -/
structure IsStorable (run : Run) : Prop where
  id : Word.fitsSigned run.id = true
  startTime : ∀ t ∈ run.startTime, t.ReadsBack
  heartbeat : ∀ t ∈ run.heartbeat, t.ReadsBack
  stopTime : ∀ t ∈ run.stopTime, t.ReadsBack

theorem IsStorable.step (h : run.IsStorable) {step : Step} (htime : ∀ t ∈ step.time?, t.ReadsBack) :
    (run.step step).IsStorable := by
  cases step with
  | startTime time => exact { h with startTime := htime }
  | heartbeat time => exact { h with heartbeat := htime }
  | stopTime time => exact { h with stopTime := htime }
  | _ => exact { h with }

theorem isStorable_build {id : Int} (hid : Word.fitsSigned id = true) {steps : List Step}
    (h : ∀ step ∈ steps, ∀ t ∈ step.time?, t.ReadsBack) : (build id steps).IsStorable := by
  refine List.foldlRecOn steps step ?_ fun run hrun step hstep => hrun.step (h step hstep)
  exact { id := hid, startTime := nofun, heartbeat := nofun, stopTime := nofun }

theorem isDerived_step (h : run.status.isDerived = false) (step : Step) :
    (run.step step).status.isDerived = false := by
  cases step with
  | status status => exact status.isDerived_stored
  | _ => exact h

/-- No steps give a run a derived status. -/
theorem isDerived_build (id : Int) (steps : List Step) :
    (build id steps).status.isDerived = false :=
  List.foldlRecOn (motive := fun run => run.status.isDerived = false) steps step rfl
    fun _ hrun step _ => isDerived_step hrun step

/-- The fields that the document of a run is read from. -/
theorem fields?_toJson (run : Run) : Decode.fields? fieldNames run.toJson = some [
    some (.int run.id), some run.config,
    some (.obj [("name", .str run.experimentName),
      ("sources", .arr (run.sources.map fun source => Json.strings [source.1, source.2]))]),
    some (.str run.status.name), run.startTime.map Instant.toJson,
    run.heartbeat.map Instant.toJson, run.stopTime.map Instant.toJson,
    some (.single "metrics" (.arr (run.metricRefs.map MetricRef.toJson))),
    some (.arr (run.artifacts.map Artifact.toJson)),
    some (.obj [("tags", Json.strings run.tags), ("notes", .str run.notes)])] := by
  obtain ⟨_, _, _, _, _, startTime, heartbeat, stopTime⟩ := run
  cases startTime <;> cases heartbeat <;> cases stopTime <;> rfl

theorem experiment?_obj (name : String) (sources : List (String × String)) :
    experiment? (.obj [("name", .str name),
      ("sources", .arr (sources.map fun source => Json.strings [source.1, source.2]))])
      = some (name, sources) := by
  have hsources : Decode.list? Decode.textPair?
      (.arr (sources.map fun source => Json.strings [source.1, source.2])) = some sources :=
    Decode.list?_map fun source _ => rfl
  have hfields : Decode.fields? ["name", "sources"] (.obj [("name", .str name),
      ("sources", .arr (sources.map fun source => Json.strings [source.1, source.2]))])
      = some [some (.str name),
        some (.arr (sources.map fun source => Json.strings [source.1, source.2]))] := rfl
  rw [experiment?, hfields]
  simp only [Decode.required, Option.bind_some, hsources]
  rfl

theorem info?_single (refs : List MetricRef) :
    info? (.single "metrics" (.arr (refs.map MetricRef.toJson))) = some refs := by
  have hfields : Decode.fields? ["metrics"] (.single "metrics" (.arr (refs.map MetricRef.toJson)))
      = some [some (.arr (refs.map MetricRef.toJson))] := rfl
  rw [info?, hfields]
  exact Decode.list?_map fun ref _ => ref.ofJson?_toJson

theorem remarks?_obj (tags : List String) (notes : String) :
    remarks? (.obj [("tags", Json.strings tags), ("notes", .str notes)]) = some (tags, notes) := by
  have htags : Decode.list? Json.str? (Json.strings tags) = some tags :=
    Decode.list?_map fun tag _ => rfl
  have hfields : Decode.fields? ["tags", "notes"]
      (.obj [("tags", Json.strings tags), ("notes", .str notes)])
      = some [some (Json.strings tags), some (.str notes)] := rfl
  rw [remarks?, hfields]
  simp only [Decode.required, Option.bind_some, htags]
  rfl

/-- The document of a run is read as the run. -/
theorem ofJson?_toJson (h : run.IsStorable) : ofJson? run.toJson = some run := by
  have hid : Json.int64? (.int run.id) = some run.id := by
    rw [Json.int, Json.int64?, if_pos h.id]
  have hartifacts : Decode.list? Artifact.ofJson? (.arr (run.artifacts.map Artifact.toJson))
      = some run.artifacts := Decode.list?_map fun artifact _ => artifact.ofJson?_toJson
  rw [ofJson?, fields?_toJson]
  simp only [Decode.required, Option.bind_some, experiment?_obj, info?_single, remarks?_obj, hid,
    hartifacts, Status.ofJson?_name, Instant.optional_toJson h.startTime,
    Instant.optional_toJson h.heartbeat, Instant.optional_toJson h.stopTime]
  rfl

/-- The document of a run that was built has a status, and it is not the derived one. -/
theorem exists_status_build (id : Int) (steps : List Step) : ∃ status : Status,
    (build id steps).toJson.member? Field.status = some (.str status.name)
      ∧ status.name ≠ Status.probablyDead.name := by
  refine ⟨(build id steps).status, member?_status _, ?_⟩
  have hderived := isDerived_build id steps
  cases hstatus : (build id steps).status with
  | probablyDead =>
      rw [hstatus] at hderived
      cases hderived
  | _ => decide

end Run

/-! ## Metrics -/

namespace Metric

variable {metric : Metric}

/-- A step of building a series: a point, or some values whose steps count on. Values that are
appended at several times are as many points. -/
inductive Step where
  | point (step : Nat) (value : Double) (time : Instant)
  | values (time : Instant) (values : List Double)

/-- The series with one step more. -/
def step (metric : Metric) : Step → Metric
  | .point step value time => metric.push step value time
  | .values time values => metric.pushValues time values

/-- The series that some steps build. -/
def build (id : String) (runId : Int) (name : String) (steps : List Step) : Metric :=
  steps.foldl step { id, runId, name }

/-- Whether a step can be stored: the number of a point fits its word, and its time is read from its
text. -/
def Step.IsStorable : Step → Prop
  | .point step _ time => Word.fitsUnsigned step = true ∧ time.ReadsBack
  | .values time _ => time.ReadsBack

/-- Whether a series is one of points that can be stored: its lists have one length, its steps fit
their word or were counted, and its times are read from their texts. -/
structure IsSeries (metric : Metric) : Prop where
  runId : Word.fitsSigned metric.runId = true
  steps : ∀ step ∈ metric.steps, Word.fitsUnsigned step = true ∨ step < metric.size
  timestamps : ∀ t ∈ metric.timestamps, t.ReadsBack
  sizes : metric.steps.length = metric.size ∧ metric.timestamps.length = metric.size

theorem size_push (metric : Metric) (step : Nat) (value : Double) (time : Instant) :
    (metric.push step value time).size = metric.size + 1 := by
  rw [size, push, List.length_append, List.length_singleton, size]

theorem IsSeries.push (h : metric.IsSeries) {step : Nat} {value : Double} {time : Instant}
    (hstep : Word.fitsUnsigned step = true ∨ step ≤ metric.size) (htime : time.ReadsBack) :
    (metric.push step value time).IsSeries where
  runId := h.runId
  steps := by
    rw [size_push]
    refine List.forall_mem_append.mpr ⟨fun s hs => ?_, List.forall_mem_singleton.mpr ?_⟩
    · exact (h.steps s hs).imp_right Nat.lt_succ_of_lt
    · exact hstep.imp_right Nat.lt_succ_of_le
  timestamps := List.forall_mem_append.mpr ⟨h.timestamps, List.forall_mem_singleton.mpr htime⟩
  sizes := by
    rw [size_push, Metric.push, List.length_append, List.length_append, h.sizes.1, h.sizes.2]
    exact ⟨rfl, rfl⟩

theorem IsSeries.pushValues (h : metric.IsSeries) {time : Instant} (htime : time.ReadsBack)
    (values : List Double) : (metric.pushValues time values).IsSeries :=
  List.foldlRecOn values _ h fun _ hmetric _ _ => hmetric.push (.inr hmetric.sizes.1.le) htime

theorem IsSeries.step (h : metric.IsSeries) {step : Step} (hstep : step.IsStorable) :
    (metric.step step).IsSeries := by
  cases step with
  | point step value time => exact h.push (.inl hstep.1) hstep.2
  | values time values => exact h.pushValues hstep values

theorem isSeries_build {id name : String} {runId : Int} (hrunId : Word.fitsSigned runId = true)
    {steps : List Step} (h : ∀ step ∈ steps, step.IsStorable) :
    (build id runId name steps).IsSeries := by
  refine List.foldlRecOn steps step ?_ fun metric hmetric step hstep =>
    hmetric.step (h step hstep)
  exact { runId := hrunId, steps := nofun, timestamps := nofun, sizes := ⟨rfl, rfl⟩ }

/-- The document of a series is read as the series, if the number of its points fits a word. -/
theorem ofJson?_toJson (h : metric.IsSeries) (hsize : Word.fitsUnsigned metric.size = true) :
    ofJson? metric.toJson = some metric := by
  have hrunId : Json.int64? (.int metric.runId) = some metric.runId := by
    rw [Json.int, Json.int64?, if_pos h.runId]
  have hsteps : Decode.list? Json.nat64? (.arr (metric.steps.map .nat)) = some metric.steps := by
    refine Decode.list?_map fun step hstep => ?_
    have hfits : Word.fitsUnsigned step = true := by
      rcases h.steps step hstep with hfits | hcounted
      · exact hfits
      · rw [Word.fitsUnsigned, decide_eq_true_eq] at hsize ⊢
        omega
    rw [Json.nat, Json.int, Json.nat64?, if_pos hfits, Int.toNat_natCast]
  have hvalues : Decode.list? Json.toDouble? (.arr (metric.values.map .double))
      = some metric.values := Decode.list?_map fun value _ => rfl
  have htimestamps : Decode.list? Instant.ofJson? (.arr (metric.timestamps.map Instant.toJson))
      = some metric.timestamps :=
    Decode.list?_map fun t ht => Instant.ofJson?_toJson (h.timestamps t ht)
  have hfields : Decode.fields? ["_id", "run_id", "name", "steps", "values", "timestamps"]
      metric.toJson = some [some (.str metric.id), some (.int metric.runId),
        some (.str metric.name), some (.arr (metric.steps.map .nat)),
        some (.arr (metric.values.map .double)),
        some (.arr (metric.timestamps.map Instant.toJson))] := rfl
  rw [ofJson?, hfields]
  simp only [Decode.required, Option.bind_some, hrunId, hsteps, hvalues, htimestamps]
  rfl

end Metric

/-- Records that were built step by step are read from their documents as they were built, whatever
the steps, and a run is never stored with the derived status. The integers are those of 64 bits, and
the instants are to be read from their texts; the dated ones are. -/
theorem stored_records_decode :
    (∀ (id : Int) (steps : List Run.Step), Word.fitsSigned id = true →
      (∀ step ∈ steps, ∀ t ∈ step.time?, t.ReadsBack) →
      Run.ofJson? (Run.build id steps).toJson = some (Run.build id steps))
    ∧ (∀ (id : Int) (steps : List Run.Step), ∃ status : Status,
      (Run.build id steps).toJson.member? Field.status = some (.str status.name)
        ∧ status.name ≠ Status.probablyDead.name)
    ∧ (∀ (id name : String) (runId : Int) (steps : List Metric.Step),
      Word.fitsSigned runId = true → (∀ step ∈ steps, step.IsStorable) →
      Word.fitsUnsigned (Metric.build id runId name steps).size = true →
      Metric.ofJson? (Metric.build id runId name steps).toJson
          = some (Metric.build id runId name steps)
        ∧ (Metric.build id runId name steps).steps.length
          = (Metric.build id runId name steps).values.length
        ∧ (Metric.build id runId name steps).timestamps.length
          = (Metric.build id runId name steps).values.length)
    ∧ ∀ t : Instant, t.IsDated → t.ReadsBack := by
  refine ⟨fun id steps hid htimes => ?_, Run.exists_status_build, fun id name runId steps hrunId
    hsteps hsize => ?_, fun t ht => Instant.ofRelaxedText?_exactText ht⟩
  · exact Run.ofJson?_toJson (Run.isStorable_build hid htimes)
  · have hseries : (Metric.build id runId name steps).IsSeries :=
      Metric.isSeries_build hrunId hsteps
    exact ⟨Metric.ofJson?_toJson hseries hsize, hseries.sizes.1, hseries.sizes.2⟩

/-- A run whose status was set to the derived one, with a heartbeat in a leap second, and a series
of a point and of two values behind it. -/
theorem stored_records_decode_of_two :
    let beat : Instant := { seconds := 1483228799, nanos := 1500000000 }
    let run := Run.build 7 [.status .probablyDead, .config (.arr [.null, .double .negZero]),
      .source "train.py" "f1", .heartbeat beat, .metric "m" "loss", .artifact "model" "f2",
      .tag "best", .experimentName "x", .source "data.py" "f3"]
    let metric :=
      Metric.build "m" 7 "loss" [.point 40 .largest beat, .values beat [.zero, .negZero]]
    run.status = .running ∧ Run.ofJson? run.toJson = some run
      ∧ metric.steps = [40, 1, 2] ∧ Metric.ofJson? metric.toJson = some metric := by
  intro beat run metric
  obtain ⟨hrun, -, hmetric, hdated⟩ := stored_records_decode
  have hbeat : beat.ReadsBack := hdated beat (by decide)
  refine ⟨rfl, hrun 7 _ (by decide) ?_, rfl, (hmetric "m" "loss" 7 _ (by decide) ?_ (by decide)).1⟩
  · simpa [Run.Step.time?] using hbeat
  · simpa [Metric.Step.IsStorable, Word.fitsUnsigned] using hbeat

end RunTable
