import RunTable.Proofs.InstantText
import RunTable.Proofs.IntegerOrder
import RunTable.Proofs.RowIdentity
import RunTable.Record.Run

/-!
# The documents of runs, and what is derived from them

The document of a run has the fields of a run and no others, each under its own name, and leaves out
the times that are not known. So it is a run as the join wants one, and its parts are read back
under their names.

Of these parts the status and the duration are derived. The times are texts, and they are compared
as instants; the present is rendered as a text as well, with three digits of the fraction, which is
why it counts from the beginning of its millisecond. The silence is compared with the limit as a
double, but between dated instants it is small enough to be one.
-/

namespace RunTable

open Outcome MetricJoin

namespace Run

variable {run : Run} {now : Instant} {deadAfterMillis : Int}

/-! ## The document -/

theorem names_timeMember (name : String) (time : Option Instant) :
    (Table.names (timeMember name time)).Sublist [name] := by
  cases time with
  | none => exact List.nil_sublist _
  | some t => exact List.Sublist.refl _

theorem names_toJson (run : Run) : (Table.names run.toJson.members).Sublist fieldNames := by
  have hnames : Table.names run.toJson.members
      = ["_id", "config", "experiment", "status"]
        ++ Table.names (timeMember "start_time" run.startTime)
        ++ Table.names (timeMember "heartbeat" run.heartbeat)
        ++ Table.names (timeMember "stop_time" run.stopTime)
        ++ ["info", "artifacts", "omniboard"] := by
    simp [toJson, Json.members, Table.names]
  have hfields : fieldNames = ["_id", "config", "experiment", "status"] ++ ["start_time"]
      ++ ["heartbeat"] ++ ["stop_time"] ++ ["info", "artifacts", "omniboard"] := rfl
  rw [hnames, hfields]
  exact ((((List.Sublist.refl _).append (names_timeMember _ _)).append
    (names_timeMember _ _)).append (names_timeMember _ _)).append (List.Sublist.refl _)

theorem isRun_toJson (run : Run) : IsRun run.toJson where
  isObject := rfl
  nodup := List.Nodup.sublist run.names_toJson (by decide)
  identified := List.mem_cons_self
  plain := by
    intro field hfield hmem
    have hapart : ∀ field ∈ [refField, hitsField, tableField], field ∉ fieldNames := by decide
    exact hapart field hfield (run.names_toJson.subset hmem)

theorem member?_id (run : Run) : run.toJson.member? Field.id = some (.int run.id) := rfl

theorem member?_status (run : Run) :
    run.toJson.member? Field.status = some (.str run.status.name) := rfl

theorem member?_startTime (run : Run) :
    run.toJson.member? Field.startTime = run.startTime.map Instant.toJson := by
  obtain ⟨_, _, _, _, _, startTime, heartbeat, stopTime⟩ := run
  cases startTime <;> cases heartbeat <;> cases stopTime <;> rfl

theorem member?_heartbeat (run : Run) :
    run.toJson.member? Field.heartbeat = run.heartbeat.map Instant.toJson := by
  obtain ⟨_, _, _, _, _, startTime, heartbeat, stopTime⟩ := run
  cases startTime <;> cases heartbeat <;> cases stopTime <;> rfl

theorem getOrNull_status (run : Run) :
    Document.getOrNull Field.status run.toJson = .str run.status.name := by
  rw [Document.getOrNull, Document.get?_eq_member? (by decide) (by decide), member?_status]
  rfl

/-- A time is read as its text, or as null if it is not known. -/
theorem getOrNull_startTime (run : Run) :
    Document.getOrNull Field.startTime run.toJson = run.startTime.elim .null Instant.toJson := by
  rw [Document.getOrNull, Document.get?_eq_member? (by decide) (by decide), member?_startTime]
  cases run.startTime <;> rfl

theorem getOrNull_heartbeat (run : Run) :
    Document.getOrNull Field.heartbeat run.toJson = run.heartbeat.elim .null Instant.toJson := by
  rw [Document.getOrNull, Document.get?_eq_member? (by decide) (by decide), member?_heartbeat]
  cases run.heartbeat <;> rfl

theorem idOf_toJson (run : Run) : idOf run.toJson = .int run.id := by
  rw [idOf_eq]
  rfl

theorem isScalar_idOf_toJson (run : Run) : (idOf run.toJson).isScalar = true := by
  rw [run.idOf_toJson]
  rfl

theorem keepsId_toJson (run : Run) {request : Request} {catalog : Catalog} :
    request.KeepsId catalog run.toJson :=
  .inl run.isScalar_idOf_toJson

/-! ## The derived columns -/

/-- A run whose times are dated. -/
structure IsDated (run : Run) : Prop where
  startTime : ∀ t ∈ run.startTime, t.IsDated
  heartbeat : ∀ t ∈ run.heartbeat, t.IsDated
  stopTime : ∀ t ∈ run.stopTime, t.IsDated

instance (run : Run) : Decidable run.IsDated :=
  decidable_of_iff ((∀ t ∈ run.startTime, t.IsDated) ∧ (∀ t ∈ run.heartbeat, t.IsDated)
      ∧ ∀ t ∈ run.stopTime, t.IsDated)
    ⟨fun h => ⟨h.1, h.2.1, h.2.2⟩, fun h => ⟨h.startTime, h.heartbeat, h.stopTime⟩⟩

/-- The last sign of life of a run: its heartbeat, or else its start. -/
def lastSeen (run : Run) : Option Instant := run.heartbeat <|> run.startTime

/-- The status of a run at an instant: probably dead if it is stored as running and more than so
many whole milliseconds have passed since its last sign of life, and else as it is stored. The
instant counts from the beginning of its millisecond. -/
def statusAt (run : Run) (now : Instant) (deadAfterMillis : Int) : Status :=
  if run.status = .running ∧ ∃ seen ∈ run.lastSeen,
      deadAfterMillis < now.cutToMillis.millisSince seen then .probablyDead
  else run.status

/-- The milliseconds from the start of a run to its heartbeat, if both are known. -/
def duration (run : Run) : Option Int :=
  run.heartbeat.bind fun beat => run.startTime.map beat.millisSince

theorem IsDated.lastSeen (h : run.IsDated) : ∀ t ∈ run.lastSeen, t.IsDated := by
  intro t ht
  rw [Run.lastSeen] at ht
  cases hbeat : run.heartbeat with
  | none =>
      rw [hbeat] at ht
      exact h.startTime t ht
  | some beat =>
      rw [hbeat] at ht
      exact h.heartbeat t (hbeat ▸ ht)

theorem eval_lastSeen (run : Run) :
    (Expr.ifNull (.field Field.heartbeat) (.field Field.startTime)).eval run.toJson
      = .ok (run.lastSeen.elim .null Instant.toJson) := by
  rw [Expr.eval, Expr.eval, Expr.eval, ok_bind, getOrNull_heartbeat, getOrNull_startTime, lastSeen]
  cases run.heartbeat <;> rfl

end Run

/-- The difference of two instants that are written as texts is one of milliseconds. -/
theorem Json.subtract_texts {a b : String} {s t : Instant} (ha : Instant.ofText? a = some s)
    (hb : Instant.ofText? b = some t) :
    Json.subtract (.str a) (.str b) = .ok (.int (s.millisSince t)) := by
  have hleft : (Json.str a).instant? = some s := ha
  have hright : (Json.str b).instant? = some t := hb
  rw [Json.subtract, hleft, hright]
  rfl

/-- An integer of at most 53 bits is above another one exactly if it is greater. -/
theorem Json.above_int {m n : Int} (h : m.natAbs < 2 ^ 53 ∨ n.natAbs < 2 ^ 53) :
    (Json.cmp (.int m) (.int n) == .gt) = decide (n < m) := by
  have hcmp : Json.cmp (.int m) (.int n) = compare m n := Number.compare_int h
  rw [hcmp, Bool.eq_iff_iff, beq_iff_eq, Int.compare_eq_gt, decide_eq_true_eq]

/-- A strict operator is applied to the values of its arguments. -/
theorem Expr.eval_binary {left right : Expr} {doc l r : Json} (operator : Binary)
    (hleft : left.eval doc = .ok l) (hright : right.eval doc = .ok r) :
    (Expr.binary operator left right).eval doc = operator.apply l r := by
  rw [Expr.eval, hleft, hright]
  rfl

/-- A conjunction of two truth values holds if both are true. -/
theorem Expr.eval_all_pair {p q : Expr} {doc : Json} {b c : Bool} (hp : p.eval doc = .ok (.bool b))
    (hq : q.eval doc = .ok (.bool c)) : (Expr.all [p, q]).eval doc = .ok (.bool (b && c)) := by
  have hall : Expr.evalAll [p, q] doc = .ok (b && c) := by
    simp only [Expr.evalAll.eq_def, hp, hq, ok_bind, Json.truthy]
    cases b <;> cases c <;> rfl
  rw [Expr.eval, hall]
  rfl

namespace Run

variable {run : Run} {now : Instant}

/-- The milliseconds since the last sign of life are computed from the document of a run. -/
theorem eval_silence (hrun : run.IsDated) (hnow : now.IsDated) :
    (Expr.subtract (.instant now)
        (.ifNull (.field Field.heartbeat) (.field Field.startTime))).eval run.toJson
      = .ok (run.lastSeen.elim .null fun seen => .int (now.cutToMillis.millisSince seen)) := by
  have hinstant : (Expr.instant now).eval run.toJson = .ok (.str now.text) := by rw [Expr.eval]
  rw [Expr.subtract, Expr.eval_binary .subtract hinstant run.eval_lastSeen]
  cases hlast : run.lastSeen with
  | none =>
      rw [Option.elim_none, Binary.apply, Json.subtract]
      rfl
  | some seen =>
      rw [Option.elim_some, Option.elim_some, Instant.toJson, Binary.apply,
        Json.subtract_texts (Instant.ofText?_text hnow)
          (Instant.ofText?_exactText (hrun.lastSeen seen hlast))]

/-- The derived duration of a run is computed from the texts of its times. -/
theorem eval_durationExpr (hrun : run.IsDated) :
    Derived.durationExpr.eval run.toJson = .ok (run.duration.elim .null .int) := by
  have hbeat : (Expr.field Field.heartbeat).eval run.toJson
      = .ok (run.heartbeat.elim .null Instant.toJson) := by
    rw [Expr.eval, run.getOrNull_heartbeat]
  have hstart : (Expr.field Field.startTime).eval run.toJson
      = .ok (run.startTime.elim .null Instant.toJson) := by
    rw [Expr.eval, run.getOrNull_startTime]
  rw [Derived.durationExpr, Expr.subtract, Expr.eval_binary .subtract hbeat hstart, Binary.apply,
    duration]
  cases hb : run.heartbeat with
  | none => rfl
  | some beat =>
      cases hs : run.startTime with
      | none => rfl
      | some start =>
          rw [Option.elim_some, Option.elim_some, Instant.toJson, Instant.toJson,
            Json.subtract_texts (Instant.ofText?_exactText (hrun.heartbeat beat hb))
              (Instant.ofText?_exactText (hrun.startTime start hs))]
          rfl

/-- Whether a run has been silent for too long is asked of its document. -/
theorem eval_isSilent (hrun : run.IsDated) (hnow : now.IsDated) (deadAfterMillis : Int) :
    (Expr.above (.subtract (.instant now)
        (.ifNull (.field Field.heartbeat) (.field Field.startTime)))
        (.literal (.int deadAfterMillis))).eval run.toJson
      = .ok (.bool (decide (∃ seen ∈ run.lastSeen,
          deadAfterMillis < now.cutToMillis.millisSince seen))) := by
  have hliteral : (Expr.literal (.int deadAfterMillis)).eval run.toJson
      = .ok (.int deadAfterMillis) := by rw [Expr.eval]
  rw [Expr.above, Expr.eval_binary .above (eval_silence hrun hnow) hliteral, Binary.apply]
  cases hlast : run.lastSeen with
  | none =>
      -- null is below every number
      have hnull : (Json.cmp .null (.int deadAfterMillis) == .gt) = false := rfl
      rw [Option.elim_none, hnull, decide_eq_false (by simp)]
  | some seen =>
      have hbits := Instant.natAbs_millisSince_lt hnow.cutToMillis (hrun.lastSeen seen hlast)
      rw [Option.elim_some, Json.above_int (.inl hbits)]
      simp

/-- The derived status of a run is its status at the present. -/
theorem eval_statusExpr (hrun : run.IsDated) (hnow : now.IsDated) (deadAfterMillis : Int) :
    (Derived.statusExpr now deadAfterMillis).eval run.toJson
      = .ok (.str (run.statusAt now deadAfterMillis).name) := by
  have hsilent := eval_isSilent hrun hnow deadAfterMillis
  have hstatus : (Expr.field Field.status).eval run.toJson = .ok (.str run.status.name) := by
    rw [Expr.eval, getOrNull_status]
  have hname : (Expr.str Status.running.name).eval run.toJson
      = .ok (.str Status.running.name) := by rw [Expr.str, Expr.eval]
  have hisRunning : (Expr.equal (.field Field.status) (.str Status.running.name)).eval run.toJson
      = .ok (.bool (decide (run.status = .running))) := by
    rw [Expr.equal, Expr.eval_binary .equal hstatus hname]
    cases run.status <;> rfl
  rw [Derived.statusExpr, Expr.eval, Expr.eval_all_pair hisRunning hsilent, ok_bind, statusAt]
  by_cases hdead : run.status = .running ∧ ∃ seen ∈ run.lastSeen,
      deadAfterMillis < now.cutToMillis.millisSince seen
  · rw [if_pos hdead, decide_eq_true hdead.1, decide_eq_true hdead.2]
    rfl
  · have hfalse : (decide (run.status = .running) && decide (∃ seen ∈ run.lastSeen,
        deadAfterMillis < now.cutToMillis.millisSince seen)) = false := by
      rw [← Bool.decide_and]
      exact decide_eq_false hdead
    rw [if_neg hdead, hfalse]
    exact hstatus

end Run

/-! ## Stores of runs -/

/-- Whether the runs of a store are the documents of some run records that have identifiers of their
own. -/
structure Store.HoldsRuns (store : Store) (settings : Settings) (runs : List Run) : Prop where
  stored : store.documents settings.runs = runs.map Run.toJson
  ids : (runs.map Run.id).Nodup

namespace Store.HoldsRuns

variable {store : Store} {settings : Settings} {runs : List Run}

theorem mem_documents (h : store.HoldsRuns settings runs) {doc : Json} :
    doc ∈ store.documents settings.runs ↔ ∃ run ∈ runs, run.toJson = doc := by
  rw [h.stored, List.mem_map]

theorem hasRecords (h : store.HoldsRuns settings runs) : store.HasRecords settings := by
  intro doc hdoc
  obtain ⟨run, -, rfl⟩ := h.mem_documents.mp hdoc
  exact ⟨run.isRun_toJson.isRecord, run.isScalar_idOf_toJson⟩

theorem nodup_ids (h : store.HoldsRuns settings runs) :
    ((store.documents settings.runs).map idOf).Nodup := by
  have hmap : (store.documents settings.runs).map idOf = (runs.map Run.id).map Json.int := by
    rw [h.stored, List.map_map, List.map_map]
    exact List.map_congr_left fun run _ => run.idOf_toJson
  rw [hmap]
  refine h.ids.map fun m n heq => ?_
  cases heq
  rfl

/-- Documents of the store are those of some of its runs. -/
theorem exists_runs (h : store.HoldsRuns settings runs) {docs : List Json}
    (hdocs : ∀ doc ∈ docs, doc ∈ store.documents settings.runs) :
    ∃ found : List Run, (∀ run ∈ found, run ∈ runs) ∧ found.map Run.toJson = docs := by
  induction docs with
  | nil => exact ⟨[], List.forall_mem_nil _, rfl⟩
  | cons doc docs ih =>
      obtain ⟨run, hrun, rfl⟩ := h.mem_documents.mp (hdocs doc List.mem_cons_self)
      obtain ⟨found, hfound, hmap⟩ := ih fun d hd => hdocs d (List.mem_cons_of_mem _ hd)
      exact ⟨run :: found, List.forall_mem_cons.mpr ⟨hrun, hfound⟩, by rw [List.map_cons, hmap]⟩

end Store.HoldsRuns

end RunTable
