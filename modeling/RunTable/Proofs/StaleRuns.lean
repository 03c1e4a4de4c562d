import RunTable.Proofs.StoredRuns

/-!
# What is declared dead

The status of a run is derived from three fields that may hold any value. The silence of a run is a
difference, and a difference has several forms: null if a value is missing, milliseconds between two
instants, and an instant again if an integer is taken from one. It is compared with the limit in the
order of all values. A null stands below every number and so never makes a run dead; milliseconds
make it dead if there are more of them than the limit; and the text of an instant stands above every
number.

So a run is declared dead if it is running and was last seen too long ago, as wanted, and also if an
integer stands where its last sign of life is looked for, however recent that integer may be.
-/

namespace RunTable

open Outcome

variable {doc value seen : Json} {now : Instant} {deadAfterMillis : Int}

/-! ## Differences and what they are compared with -/

/-- A difference from the text of an instant: null, milliseconds or an earlier instant. -/
theorem Json.subtract_text_cases {text : String} (htext : Instant.ofText? text = some now)
    (h : Json.subtract (.str text) seen = .ok value) :
    (seen = .null ∧ value = .null)
    ∨ (∃ t, seen.instant? = some t ∧ value = .int (now.millisSince t))
    ∨ ∃ n, seen.int64? = some n ∧ value = .str (now.earlier n).text := by
  have hleft : (Json.str text).instant? = some now := htext
  cases seen with
  | null =>
      cases h
      exact .inl ⟨rfl, rfl⟩
  | str other =>
      cases hother : (Json.str other).instant? with
      | some t =>
          rw [subtract_texts htext hother] at h
          cases h
          exact .inr (.inl ⟨t, rfl, rfl⟩)
      | none =>
          rw [subtract, hleft, hother] at h
          cases h
  | num n =>
      cases hint : (Json.num n).int64? with
      | some m =>
          rw [subtract, hleft, hint] at h
          cases h
          exact .inr (.inr ⟨m, rfl, rfl⟩)
      | none =>
          rw [subtract, hleft, hint] at h
          cases h
  | bool _ | arr _ | obj _ =>
      rw [subtract, hleft] at h
      cases h

/-- An integer is taken from an instant as milliseconds. -/
theorem Json.subtract_text_int {text : String} {n : Int}
    (htext : Instant.ofText? text = some now) (hseen : seen.int64? = some n) :
    Json.subtract (.str text) seen = .ok (.str (now.earlier n).text) := by
  have hleft : (Json.str text).instant? = some now := htext
  cases seen with
  | num m =>
      rw [subtract, hleft, hseen]
      rfl
  | _ => cases hseen

/-- An integer that is above another one as a double is greater than it. -/
theorem Json.lt_of_above_int {m n : Int} (h : (Json.cmp (.int m) (.int n) == .gt) = true) :
    n < m := by
  by_contra hle
  have hkeys := Double.key_ofInt_mono (Int.not_lt.mp hle)
  have hcmp : Json.cmp (.int m) (.int n)
      = compare (Double.ofInt m).key (Double.ofInt n).key := rfl
  rw [hcmp, beq_iff_eq, Int.compare_eq_gt] at h
  omega

namespace Instant

variable {s t : Instant}

/-- The beginning of a millisecond is no later than what falls into it. -/
theorem nanosSince_cutToMillis_le (s t : Instant) :
    s.cutToMillis.nanosSince t ≤ s.nanosSince t := by
  have hleap : s.cutToMillis.isLeap = s.isLeap := by
    rw [isLeap, isLeap, decide_eq_decide, nanosPerSecond]
    change 1000000000 ≤ s.nanos / 1000000 * 1000000 ↔ _
    omega
  have hnanos : (s.cutToMillis.nanos : Int) ≤ s.nanos :=
    Int.ofNat_le.mpr (Nat.div_mul_le_self _ _)
  rw [nanosSince, nanosSince, hleap]
  exact Int.add_le_add_left (Int.sub_le_sub_right hnanos _) _

/-- More whole milliseconds than a limit are more than the limit in nanoseconds. -/
theorem lt_nanosSince_of_lt_millisSince {millis : Int} (h : millis < s.millisSince t) :
    millis * 1000000 < s.nanosSince t := by
  rw [millisSince] at h
  -- a rest is dropped towards zero, so the two signs are rounded differently
  rcases Int.le_total 0 (s.nanosSince t) with hpos | hneg
  · rw [Int.tdiv_eq_ediv_of_nonneg hpos] at h
    omega
  · have hflip : (s.nanosSince t).tdiv 1000000 = -((-s.nanosSince t) / 1000000) := by
      rw [← Int.tdiv_eq_ediv_of_nonneg (Int.neg_nonneg_of_nonpos hneg), Int.neg_tdiv, Int.neg_neg]
    omega

end Instant

/-! ## Expressions -/

namespace Expr

variable {p q left right : Expr}

theorem evalAll_cons_eq_true {terms : List Expr} (h : evalAll (p :: terms) doc = .ok true) :
    ∃ v, p.eval doc = .ok v ∧ v.truthy = true ∧ evalAll terms doc = .ok true := by
  rw [evalAll] at h
  obtain ⟨v, hv, hrest⟩ := bind_eq_ok.mp h
  cases htruthy : v.truthy with
  | true =>
      rw [htruthy] at hrest
      exact ⟨v, hv, htruthy, hrest⟩
  | false =>
      rw [htruthy] at hrest
      cases hrest

/-- A conjunction of two terms that holds has two terms that hold. -/
theorem holds_of_all_pair (h : (Expr.all [p, q]).eval doc = .ok value)
    (hvalue : value.truthy = true) :
    ∃ v w, p.eval doc = .ok v ∧ v.truthy = true ∧ q.eval doc = .ok w ∧ w.truthy = true := by
  rw [eval] at h
  obtain ⟨b, hb, hret⟩ := bind_eq_ok.mp h
  cases hret
  change b = true at hvalue
  subst hvalue
  obtain ⟨v, hv, hholds, hrest⟩ := evalAll_cons_eq_true hb
  obtain ⟨w, hw, hholds', -⟩ := evalAll_cons_eq_true hrest
  exact ⟨v, w, hv, hholds, hw, hholds'⟩

theorem eval_binary_eq_ok {operator : Binary}
    (h : (Expr.binary operator left right).eval doc = .ok value) :
    ∃ l r, left.eval doc = .ok l ∧ right.eval doc = .ok r ∧ operator.apply l r = .ok value := by
  rw [eval] at h
  obtain ⟨l, hl, hrest⟩ := bind_eq_ok.mp h
  obtain ⟨r, hr, hvalue⟩ := bind_eq_ok.mp hrest
  exact ⟨l, r, hl, hr, hvalue⟩

end Expr

/-! ## Runs that are declared dead -/

namespace Derived

/-- The last sign of life that is read from a document: the heartbeat, or the start if that is null
or missing. -/
def lastSeen (doc : Json) : Json :=
  let beat := Document.getOrNull Field.heartbeat doc
  if beat.isNull then Document.getOrNull Field.startTime doc else beat

theorem eval_lastSeen (doc : Json) :
    (Expr.ifNull (.field Field.heartbeat) (.field Field.startTime)).eval doc
      = .ok (lastSeen doc) := by
  rw [Expr.eval, Expr.eval, Expr.eval, ok_bind, lastSeen]
  split <;> rfl

/-- What is silent for too long was seen at an instant that is too long ago, or at an integer. -/
theorem stale_or_integer_of_isSilent (hnow : now.IsDated)
    (h : (Expr.above (.subtract (.instant now)
        (.ifNull (.field Field.heartbeat) (.field Field.startTime)))
        (.literal (.int deadAfterMillis))).eval doc = .ok value) (hvalue : value.truthy = true) :
    (∃ t, (lastSeen doc).instant? = some t ∧ deadAfterMillis * 1000000 < now.nanosSince t)
      ∨ ∃ n, (lastSeen doc).int64? = some n := by
  obtain ⟨silence, limit, hsilence, hlimit, habove⟩ := Expr.eval_binary_eq_ok h
  obtain ⟨text, seen, htext, hseen, hdifference⟩ := Expr.eval_binary_eq_ok hsilence
  cases (eval_lastSeen doc).symm.trans hseen
  cases hlimit
  cases htext
  cases habove
  rw [Binary.apply] at hdifference
  change (Json.cmp silence (.int deadAfterMillis) == .gt) = true at hvalue
  rcases Json.subtract_text_cases (Instant.ofText?_text hnow) hdifference with
    ⟨-, rfl⟩ | ⟨t, ht, rfl⟩ | ⟨n, hn, -⟩
  · cases hvalue
  · have hmillis : deadAfterMillis < now.cutToMillis.millisSince t := Json.lt_of_above_int hvalue
    have hnanos := Instant.lt_nanosSince_of_lt_millisSince hmillis
    exact .inl ⟨t, ht, hnanos.trans_le (Instant.nanosSince_cutToMillis_le now t)⟩
  · exact .inr ⟨n, hn⟩

/-- Whatever stands in a document, unless its status is stored as dead it is declared dead only if
it is running and was last seen more than the limit before the present, or if it is running and its
last sign of life is an integer. -/
theorem dead_only_if_stale_or_integer (hnow : now.IsDated)
    (h : (statusExpr now deadAfterMillis).eval doc = .ok (.str Status.probablyDead.name)) :
    Document.getOrNull Field.status doc = .str Status.probablyDead.name
      ∨ (Document.getOrNull Field.status doc = .str Status.running.name
        ∧ ((∃ t, (lastSeen doc).instant? = some t ∧ deadAfterMillis * 1000000 < now.nanosSince t)
          ∨ ∃ n, (lastSeen doc).int64? = some n)) := by
  rw [statusExpr, Expr.eval] at h
  obtain ⟨test, htest, hbranch⟩ := bind_eq_ok.mp h
  split at hbranch
  · next hdead =>
      obtain ⟨running, silent, hrunning, hisRunning, hsilent, hisSilent⟩ :=
        Expr.holds_of_all_pair htest hdead
      obtain ⟨status, name, hstatus, hname, hequal⟩ := Expr.eval_binary_eq_ok hrunning
      cases hstatus
      cases hname
      cases hequal
      change Json.equal (Document.getOrNull Field.status doc) (.str Status.running.name) = true
        at hisRunning
      rw [MetricJoin.equal_str, beq_iff_eq] at hisRunning
      refine .inr ⟨?_, stale_or_integer_of_isSilent hnow hsilent hisSilent⟩
      cases hstored : Document.getOrNull Field.status doc with
      | str text =>
          rw [hstored] at hisRunning
          exact congrArg Json.str (Option.some.inj hisRunning)
      | _ =>
          rw [hstored] at hisRunning
          cases hisRunning
  · rw [Expr.eval] at hbranch
    exact .inl (Except.ok.inj hbranch)

/-- A run that was last seen two minutes and a millisecond before the present. -/
theorem dead_only_if_stale_or_integer_of_one :
    let run : Run := { id := 1, status := .running, startTime := some ⟨978307200, 0⟩ }
    let now : Instant := ⟨978307320, 1000000⟩
    (statusExpr now 120000).eval run.toJson = .ok (.str "PROBABLY_DEAD")
      ∧ ∃ t, (lastSeen run.toJson).instant? = some t
        ∧ 120000 * 1000000 < now.nanosSince t := by
  intro run now
  have hnow : now.IsDated := by decide
  have hdead : (statusExpr now 120000).eval run.toJson = .ok (.str Status.probablyDead.name) := by
    have hstatus : run.statusAt now 120000 = .probablyDead := by decide
    rw [← hstatus]
    exact Run.eval_statusExpr (by decide) hnow 120000
  refine ⟨hdead, ?_⟩
  obtain hstored | ⟨-, hstale | ⟨n, hseen⟩⟩ := dead_only_if_stale_or_integer hnow hdead
  · rw [run.getOrNull_status, Json.str.injEq] at hstored
    exact absurd hstored (by decide)
  · exact hstale
  · cases hseen

/-- An integer in place of the last sign of life makes a running run dead, whatever the present and
the limit. -/
theorem eval_statusExpr_of_integer (hnow : now.IsDated) {n : Int}
    (hrunning : Document.getOrNull Field.status doc = .str Status.running.name)
    (hseen : (lastSeen doc).int64? = some n) (deadAfterMillis : Int) :
    (statusExpr now deadAfterMillis).eval doc = .ok (.str Status.probablyDead.name) := by
  have hinstant : (Expr.instant now).eval doc = .ok (.str now.text) := by rw [Expr.eval]
  have hlimit : (Expr.literal (.int deadAfterMillis)).eval doc = .ok (.int deadAfterMillis) := by
    rw [Expr.eval]
  have hstatus : (Expr.field Field.status).eval doc = .ok (.str Status.running.name) := by
    rw [Expr.eval, hrunning]
  have hname : (Expr.str Status.running.name).eval doc = .ok (.str Status.running.name) := by
    rw [Expr.str, Expr.eval]
  have hsilence : (Expr.subtract (.instant now)
      (.ifNull (.field Field.heartbeat) (.field Field.startTime))).eval doc
        = .ok (.str (now.cutToMillis.earlier n).text) := by
    rw [Expr.subtract, Expr.eval_binary .subtract hinstant (eval_lastSeen doc), Binary.apply,
      Json.subtract_text_int (Instant.ofText?_text hnow) hseen]
  have hisSilent : (Expr.above (.subtract (.instant now)
      (.ifNull (.field Field.heartbeat) (.field Field.startTime)))
      (.literal (.int deadAfterMillis))).eval doc = .ok (.bool true) := by
    -- every text is above every number
    rw [Expr.above, Expr.eval_binary .above hsilence hlimit]
    rfl
  have hisRunning : (Expr.equal (.field Field.status) (.str Status.running.name)).eval doc
      = .ok (.bool true) := by
    rw [Expr.equal, Expr.eval_binary .equal hstatus hname]
    rfl
  rw [statusExpr, Expr.eval, Expr.eval_all_pair hisRunning hisSilent]
  rfl

/-- A running run whose heartbeat is an integer is declared dead, though it was not seen at any
instant. -/
theorem dead_though_not_stale :
    let now : Instant := ⟨978307200, 0⟩
    let doc : Json := .obj [("_id", .int 1), ("status", .str "RUNNING"), ("heartbeat", .int 5)]
    now.IsDated ∧ (statusExpr now 120000).eval doc = .ok (.str "PROBABLY_DEAD")
      ∧ ¬ (Document.getOrNull Field.status doc = .str "PROBABLY_DEAD"
        ∨ (Document.getOrNull Field.status doc = .str "RUNNING"
          ∧ ∃ t, (lastSeen doc).instant? = some t ∧ 120000 * 1000000 < now.nanosSince t)) := by
  intro now doc
  have hnow : now.IsDated := by decide
  have hstored : Document.getOrNull Field.status doc = .str "RUNNING" := rfl
  refine ⟨hnow, eval_statusExpr_of_integer hnow hstored rfl 120000, ?_⟩
  rintro (hdead | ⟨-, t, hseen, -⟩)
  · rw [hstored, Json.str.injEq] at hdead
    exact absurd hdead (by decide)
  · cases hseen

end Derived

end RunTable
