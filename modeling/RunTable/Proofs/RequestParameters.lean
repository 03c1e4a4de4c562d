import Mathlib.Data.List.DropRight
import RunTable.Params
import RunTable.Proofs.Outcomes

/-!
# What pairs of texts say as a request

Pairs are read one after the other, and what has been read so far is changed by the next pair. None
of that shows in the result. A request is refused for the first pair that cannot be read, whatever
stands behind it, and a pair can be read or not by itself. A request that is accepted says of each
parameter what the last pair of its name says, so pairs of other names and the order among pairs of
different names make no difference.

The step lemmas say what one pair does to parameters that are given by such last values; the run is
an induction over the pairs that count.
-/

namespace RunTable

open Outcome

/-- A trimmed text has nothing left to trim. -/
theorem Text.trim_trim (text : String) : trim (trim text) = trim text := by
  have hchars : ∀ cs : List Char, trimChars cs = (cs.dropWhile isBlank).rdropWhile isBlank :=
    fun cs => rfl
  have htrimmed : (trimChars text.toList).dropWhile isBlank = trimChars text.toList := by
    rw [List.dropWhile_eq_self_iff]
    intro hlength
    -- the first character is that of the text without the blanks in front
    have hpre : trimChars text.toList <+: text.toList.dropWhile isBlank := by
      rw [hchars]
      exact List.rdropWhile_prefix _ _
    have hfirst := List.dropWhile_eq_self_iff.mp
      (List.dropWhile_idempotent isBlank text.toList) (hlength.trans_le hpre.length_le)
    rwa [hpre.getElem hlength]
  rw [trim, trim, String.toList_ofList, hchars, htrimmed, hchars text.toList,
    List.rdropWhile_idempotent]

namespace Params

/-! ## Pairs by themselves -/

/-- The pairs that count: those whose value is not blank, with the value trimmed. -/
def given (pairs : List (String × String)) : List (String × String) :=
  (pairs.map fun pair => (pair.1, Text.trim pair.2)).filter fun pair => !pair.2.isEmpty

/-- The pairs that are refused, each with the error that it is refused with. -/
inductive Refused : String × String → Error → Prop
  | limitNotNatural {value : String} (h : Numeral.unsigned? value = none) :
      Refused ("limit", value) (.parameter "limit" (.notNatural value))
  | limitZero {value : String} (h : Numeral.unsigned? value = some 0) :
      Refused ("limit", value) (.parameter "limit" .zero)
  | skipNotNatural {value : String} (h : Numeral.unsigned? value = none) :
      Refused ("skip", value) (.parameter "skip" (.notNatural value))
  | orderNotInteger {value : String} (h : Numeral.signed? value = none) :
      Refused ("order_by", value) (.parameter "order_by" .notDirection)
  | queryNotJson {value : String} (h : Json.ofText? value = none) :
      Refused ("query", value) (.filterSyntax .notJson)
  | queryNotObject {value : String} {other : Json} (h : Json.ofText? value = some other)
      (hnull : other ≠ .null) (hobject : ∀ members, other ≠ .obj members) :
      Refused ("query", value) (.filterSyntax (.notObject other))

/-- Whether a pair can be read. -/
def Readable (pair : String × String) : Prop := ∀ e, ¬ Refused pair e

/-- The parameters with some values, each read by itself. A parameter without a value has its
default. -/
def ofValues (value? : String → Option String) : Params where
  limit := (value? "limit").bind Numeral.unsigned?
  skip := ((value? "skip").bind Numeral.unsigned?).getD 0
  sortBy := value? "sort_by"
  order := ((value? "order_by").bind Numeral.signed?).map .ofSign
  select := (value? "select").elim [] columns
  distinct := value? "distinct"
  filter := (value? "query").bind fun text => (Json.ofText? text).bind Filter.effective?

/-- The names of the parameters. -/
def names : List String := ["limit", "skip", "sort_by", "order_by", "select", "distinct", "query"]

/-- The value of the last pair of a name among those that count. -/
def lastValue? (pairs : List (String × String)) (name : String) : Option String :=
  (given pairs).reverse.lookup name

variable {params : Params} {pair : String × String} {pairs others : List (String × String)}
  {value? : String → Option String} {e : Error}

theorem given_nil : given [] = [] := rfl

theorem given_cons (pair : String × String) (pairs : List (String × String)) :
    given (pair :: pairs) = if (Text.trim pair.2).isEmpty then given pairs
      else (pair.1, Text.trim pair.2) :: given pairs := by
  rw [given, List.map_cons, List.filter_cons]
  cases (Text.trim pair.2).isEmpty <;> rfl

theorem trim_of_mem_given (h : pair ∈ given pairs) : (Text.trim pair.2).isEmpty = false := by
  obtain ⟨hmem, hvalue⟩ := List.mem_filter.mp h
  obtain ⟨stored, -, rfl⟩ := List.mem_map.mp hmem
  rw [Text.trim_trim]
  exact Bool.not_eq_true' _ ▸ hvalue

/-! ## One pair -/

theorem set_of_not_mem {name : String} (h : name ∉ names) (value : String) :
    params.set name value = .ok params := by
  simp only [names, List.mem_cons, List.not_mem_nil, or_false, not_or] at h
  obtain ⟨hlimit, hskip, hsort, horder, hselect, hdistinct, hquery⟩ := h
  simp only [set]
  rfl

/-- A pair that is refused is refused by whatever parameters it is added to. -/
theorem set_of_refused (h : Refused pair e) (hvalue : (Text.trim pair.2).isEmpty = false) :
    params.set pair.1 pair.2 = .error e := by
  cases h with
  | @limitNotNatural value h =>
      have hsize : pageSize "limit" value = .error (.parameter "limit" (.notNatural value)) := by
        rw [pageSize, natural, h]
        rfl
      rw [set, hsize]
      rfl
  | @limitZero value h =>
      have hsize : pageSize "limit" value = .error (.parameter "limit" .zero) := by
        rw [pageSize, natural, h]
        rfl
      rw [set, hsize]
      rfl
  | skipNotNatural h =>
      rw [set, natural, h]
      rfl
  | orderNotInteger h =>
      rw [set, direction, h]
      rfl
  | queryNotJson h =>
      rw [set, Filter.ofText?, hvalue, h]
      rfl
  | @queryNotObject value other h hnull hobject =>
      have hfilter : Filter.ofText? value = .error (.filterSyntax (.notObject other)) := by
        rw [Filter.ofText?, hvalue, h]
        cases other with
        | null => exact absurd rfl hnull
        | obj members => exact absurd rfl (hobject members)
        | _ => rfl
      rw [set, hfilter]
      rfl

/-- Only the values of the seven names count. -/
theorem ofValues_congr {other? : String → Option String}
    (h : ∀ name ∈ names, value? name = other? name) : ofValues value? = ofValues other? := by
  simp only [ofValues, h "limit" (by decide), h "skip" (by decide), h "sort_by" (by decide),
    h "order_by" (by decide), h "select" (by decide), h "distinct" (by decide),
    h "query" (by decide)]

theorem ofText?_of_readable {value : String} (h : Readable ("query", value))
    (hvalue : (Text.trim value).isEmpty = false) :
    Filter.ofText? value = .ok ((Json.ofText? value).bind Filter.effective?) := by
  rw [Filter.ofText?, hvalue]
  cases hread : Json.ofText? value with
  | none => exact absurd (.queryNotJson hread) (h _)
  | some read =>
      cases read with
      | null => rfl
      | obj members => rfl
      | _ => exact absurd (.queryNotObject hread nofun nofun) (h _)

/-- A pair that can be read gives its name a new value. -/
theorem set_of_readable (h : Readable pair) (hvalue : (Text.trim pair.2).isEmpty = false) :
    (ofValues value?).set pair.1 pair.2
      = .ok (ofValues (Function.update value? pair.1 (some pair.2))) := by
  obtain ⟨name, value⟩ := pair
  by_cases hname : name ∈ names
  · simp only [names, List.mem_cons, List.not_mem_nil, or_false] at hname
    rcases hname with rfl | rfl | rfl | rfl | rfl | rfl | rfl
    · have hupdated : ofValues (Function.update value? "limit" (some value))
          = { ofValues value? with limit := Numeral.unsigned? value } := rfl
      rw [hupdated, set, pageSize, natural]
      cases hread : Numeral.unsigned? value with
      | none => exact absurd (.limitNotNatural hread) (h _)
      | some n =>
          cases n with
          | zero => exact absurd (.limitZero hread) (h _)
          | succ n => rfl
    · have hupdated : ofValues (Function.update value? "skip" (some value))
          = { ofValues value? with skip := (Numeral.unsigned? value).getD 0 } := rfl
      rw [hupdated, set, natural]
      cases hread : Numeral.unsigned? value with
      | none => exact absurd (.skipNotNatural hread) (h _)
      | some n => rfl
    · rfl
    · have hupdated : ofValues (Function.update value? "order_by" (some value))
          = { ofValues value? with order := (Numeral.signed? value).map .ofSign } := rfl
      rw [hupdated, set, direction]
      cases hread : Numeral.signed? value with
      | none => exact absurd (.orderNotInteger hread) (h _)
      | some n => rfl
    · rfl
    · rfl
    · rw [set, ofText?_of_readable h hvalue]
      rfl
  · rw [set_of_not_mem hname]
    refine congrArg _ (ofValues_congr fun other hother => ?_)
    rw [Function.update_of_ne (ne_of_mem_of_not_mem hother hname)]

/-! ## All pairs -/

/-- Only the pairs that count are added. -/
theorem ofPairs_eq (pairs : List (String × String)) :
    ofPairs pairs = (given pairs).foldlM (fun params pair => params.set pair.1 pair.2) {} := by
  have hall : ∀ params : Params, pairs.foldlM add params
      = (given pairs).foldlM (fun params pair => params.set pair.1 pair.2) params := by
    induction pairs with
    | nil =>
        intro params
        rw [given_nil, List.foldlM_nil, List.foldlM_nil]
    | cons pair pairs ih =>
        intro params
        rw [List.foldlM_cons, given_cons, add]
        cases (Text.trim pair.2).isEmpty with
        | true =>
            rw [if_pos rfl, if_pos rfl, ok_bind]
            exact ih params
        | false =>
            rw [if_neg Bool.false_ne_true, if_neg Bool.false_ne_true, List.foldlM_cons]
            exact bind_congr ih
  exact hall {}

/-- Pairs that can all be read make each last value of a name the value of the name. -/
theorem foldlM_set (hread : ∀ pair ∈ pairs, Readable pair)
    (hvalue : ∀ pair ∈ pairs, (Text.trim pair.2).isEmpty = false) :
    pairs.foldlM (fun params pair => params.set pair.1 pair.2) (ofValues value?)
      = .ok (ofValues fun name => (pairs.reverse.lookup name).or (value? name)) := by
  induction pairs generalizing value? with
  | nil => rfl
  | cons pair pairs ih =>
      obtain ⟨hpair, hpairs⟩ := List.forall_mem_cons.mp hread
      obtain ⟨hfirst, hothers⟩ := List.forall_mem_cons.mp hvalue
      rw [List.foldlM_cons, set_of_readable hpair hfirst, ok_bind, ih hpairs hothers]
      refine congrArg _ (congrArg _ (funext fun name => ?_))
      rw [List.reverse_cons, List.lookup_append, Option.or_assoc, List.lookup_cons]
      refine congrArg _ ?_
      by_cases hname : name = pair.1
      · subst hname
        simp
      · rw [beq_false_of_ne hname, Function.update_of_ne hname]
        rfl

/-- A list of pairs can be read, or there is a first pair that is refused. -/
theorem readable_or_refused (pairs : List (String × String)) :
    (∀ pair ∈ pairs, Readable pair)
      ∨ ∃ before pair after e, pairs = before ++ pair :: after
        ∧ (∀ earlier ∈ before, Readable earlier) ∧ Refused pair e := by
  induction pairs with
  | nil => exact .inl (List.forall_mem_nil _)
  | cons pair pairs ih =>
      by_cases hpair : Readable pair
      · rcases ih with hall | ⟨before, first, after, e, rfl, hbefore, hfirst⟩
        · exact .inl (List.forall_mem_cons.mpr ⟨hpair, hall⟩)
        · exact .inr ⟨pair :: before, first, after, e, rfl,
            List.forall_mem_cons.mpr ⟨hpair, hbefore⟩, hfirst⟩
      · obtain ⟨e, he⟩ := not_forall_not.mp hpair
        exact .inr ⟨[], pair, pairs, e, rfl, List.forall_mem_nil _, he⟩

theorem ofPairs_of_readable (h : ∀ pair ∈ given pairs, Readable pair) :
    ofPairs pairs = .ok (ofValues (lastValue? pairs)) := by
  have hstart : ({} : Params) = ofValues fun _ => none := rfl
  rw [ofPairs_eq, hstart, foldlM_set h fun pair hpair => trim_of_mem_given hpair]
  refine congrArg _ (congrArg _ (funext fun name => ?_))
  rw [Option.or_none, lastValue?]

theorem ofPairs_of_refused {before after : List (String × String)}
    (h : given pairs = before ++ pair :: after) (hbefore : ∀ earlier ∈ before, Readable earlier)
    (hpair : Refused pair e) : ofPairs pairs = .error e := by
  have hvalue : ∀ other ∈ before ++ pair :: after, (Text.trim other.2).isEmpty = false :=
    fun other hother => trim_of_mem_given (h ▸ hother)
  have hstart : ({} : Params) = ofValues fun _ => none := rfl
  rw [ofPairs_eq, h, List.foldlM_append, hstart, foldlM_set hbefore fun earlier hearlier =>
    hvalue earlier (List.mem_append_left _ hearlier), ok_bind, List.foldlM_cons,
    set_of_refused hpair (hvalue pair (List.mem_append_right _ List.mem_cons_self))]
  rfl

/-- A request is refused with an error if that is what its first refused pair is refused with. -/
theorem ofPairs_eq_error : ofPairs pairs = .error e
    ↔ ∃ before pair after, given pairs = before ++ pair :: after
      ∧ (∀ earlier ∈ before, Readable earlier) ∧ Refused pair e := by
  constructor
  · intro h
    rcases readable_or_refused (given pairs) with
      hall | ⟨before, pair, after, e', heq, hbefore, hpair⟩
    · rw [ofPairs_of_readable hall] at h
      cases h
    · rw [ofPairs_of_refused heq hbefore hpair] at h
      cases h
      exact ⟨before, pair, after, heq, hbefore, hpair⟩
  · rintro ⟨before, pair, after, heq, hbefore, hpair⟩
    exact ofPairs_of_refused heq hbefore hpair

/-- A request is accepted if each pair that counts can be read, and then its last values count. -/
theorem ofPairs_eq_ok : ofPairs pairs = .ok params
    ↔ (∀ pair ∈ given pairs, Readable pair) ∧ params = ofValues (lastValue? pairs) := by
  constructor
  · intro h
    rcases readable_or_refused (given pairs) with
      hall | ⟨before, pair, after, e, heq, hbefore, hpair⟩
    · rw [ofPairs_of_readable hall] at h
      cases h
      exact ⟨hall, rfl⟩
    · rw [ofPairs_of_refused heq hbefore hpair] at h
      cases h
  · rintro ⟨hall, rfl⟩
    exact ofPairs_of_readable hall

/-! ## The order of pairs -/

/-- Whether two lists of pairs have the same values under each name of a parameter, in the same
order. So they do if one is the other with the pairs of different names in another order, and with
other pairs of other names. -/
def SameByName (pairs others : List (String × String)) : Prop :=
  ∀ name ∈ names,
    (given pairs).filter (·.1 == name) = (given others).filter (·.1 == name)

instance (pairs others : List (String × String)) : Decidable (SameByName pairs others) :=
  inferInstanceAs (Decidable (∀ name ∈ names, _ = _))

theorem readable_of_not_mem (h : pair.1 ∉ names) : Readable pair := by
  intro e he
  cases he <;> exact h (by simp [names])

theorem lookup_reverse_eq (pairs : List (String × String)) (name : String) :
    pairs.reverse.lookup name = ((pairs.filter (·.1 == name)).getLast?).map (·.2) := by
  induction pairs using List.reverseRecOn with
  | nil => rfl
  | append_singleton pairs pair ih =>
      rw [List.reverse_concat, List.lookup_cons, List.filter_append, List.filter_singleton]
      by_cases hname : name = pair.1
      · subst hname
        simp
      · rw [beq_false_of_ne hname, beq_false_of_ne (Ne.symm hname), ih]
        simp

theorem SameByName.symm (h : SameByName pairs others) : SameByName others pairs :=
  fun name hname => (h name hname).symm

theorem SameByName.readable (h : SameByName pairs others)
    (hread : ∀ pair ∈ given pairs, Readable pair) : ∀ pair ∈ given others, Readable pair := by
  intro pair hpair
  by_cases hname : pair.1 ∈ names
  · have hmem : pair ∈ (given others).filter (·.1 == pair.1) :=
      List.mem_filter.mpr ⟨hpair, beq_self_eq_true _⟩
    rw [← h _ hname] at hmem
    exact hread pair (List.mem_filter.mp hmem).1
  · exact readable_of_not_mem hname

theorem SameByName.ofPairs_eq (h : SameByName pairs others)
    (hread : ∀ pair ∈ given pairs, Readable pair) : ofPairs others = ofPairs pairs := by
  rw [ofPairs_of_readable hread, ofPairs_of_readable (h.readable hread)]
  refine congrArg _ (ofValues_congr fun name hname => ?_)
  rw [lastValue?, lastValue?, lookup_reverse_eq, lookup_reverse_eq, h name hname]

/-- A request is refused exactly if one of the pairs that count cannot be read, with the error of
the first one. Else each parameter is what the last pair of its name says, or its default. And only
the order among pairs of one name matters: with the same pairs under each name, one request is
refused if the other one is, and else they are the same. -/
theorem parameters_say_last_values (pairs : List (String × String)) :
    ((∃ e, ofPairs pairs = .error e) ↔ ∃ pair ∈ given pairs, ¬ Readable pair)
    ∧ (∀ e, ofPairs pairs = .error e
      ↔ ∃ before pair after, given pairs = before ++ pair :: after
        ∧ (∀ earlier ∈ before, Readable earlier) ∧ Refused pair e)
    ∧ (∀ params, ofPairs pairs = .ok params
      ↔ (∀ pair ∈ given pairs, Readable pair) ∧ params = ofValues (lastValue? pairs))
    ∧ ∀ others, SameByName pairs others →
      (ofPairs others).toOption = (ofPairs pairs).toOption := by
  refine ⟨?_, fun e => ofPairs_eq_error, fun params => ofPairs_eq_ok, fun others hsame => ?_⟩
  · constructor
    · rintro ⟨e, he⟩
      obtain ⟨before, pair, after, heq, -, hpair⟩ := ofPairs_eq_error.mp he
      exact ⟨pair, heq ▸ List.mem_append_right _ List.mem_cons_self, fun hread => hread e hpair⟩
    · rintro ⟨pair, hmem, hpair⟩
      cases hread : ofPairs pairs with
      | error e => exact ⟨e, rfl⟩
      | ok params => exact absurd ((ofPairs_eq_ok.mp hread).1 pair hmem) hpair
  · cases hread : ofPairs pairs with
    | ok params => rw [hsame.ofPairs_eq (ofPairs_eq_ok.mp hread).1, hread]
    | error e =>
        cases hothers : ofPairs others with
        | error e' => rfl
        | ok params =>
            rw [hsame.symm.ofPairs_eq (ofPairs_eq_ok.mp hothers).1, hothers] at hread
            cases hread

/-- Pairs of which the last of each name counts, in two orders, and pairs of which the second is
refused although a later one of its name could be read. -/
theorem parameters_say_last_values_of_twelve :
    let pairs := [("limit", "5"), ("query", "\x7b\"a\":1\x7d"), ("page", "9"), ("limit", " 20 "),
      ("skip", " "), ("query", "null"), ("select", "a,,b"), ("order_by", "-1"),
      ("sort_by", "status"), ("order_by", " +1 "), ("sort_by", "config.lr"), ("distinct", "host")]
    let others := [("order_by", "-1"), ("order_by", "+1"), ("distinct", "host"),
      ("sort_by", "status"), ("sort_by", " config.lr"), ("select", "a,,b"),
      ("query", "\x7b\"a\":1\x7d"), ("limit", "5"), ("limit", "20"), ("query", "null")]
    let refusedSkip := [("limit", "5"), ("skip", "-1"), ("limit", "0"), ("skip", "3")]
    let refusedOrder := [("order_by", "-1"), ("order_by", "up"), ("order_by", "1")]
    SameByName pairs others ∧ (ofPairs others).toOption = (ofPairs pairs).toOption
      ∧ ofPairs pairs = .ok {
        limit := some 20, select := ["a", "b"], sortBy := some "config.lr"
        order := some .ascending, distinct := some "host" }
      ∧ ofPairs refusedSkip = .error (.parameter "skip" (.notNatural "-1"))
      ∧ ofPairs refusedOrder = .error (.parameter "order_by" .notDirection) := by
  intro pairs others refusedSkip refusedOrder
  have hsame : SameByName pairs others := by decide
  -- a pair can be read if it can be as the only one
  have hlimit : ∀ earlier ∈ [("limit", "5")], Readable earlier :=
    (((parameters_say_last_values [("limit", "5")]).2.2.1 { limit := some 5 }).mp rfl).1
  have horder : ∀ earlier ∈ [("order_by", "-1")], Readable earlier :=
    (((parameters_say_last_values [("order_by", "-1")]).2.2.1
      { order := some .descending }).mp rfl).1
  refine ⟨hsame, (parameters_say_last_values pairs).2.2.2 others hsame, rfl, ?_, ?_⟩
  · exact ((parameters_say_last_values refusedSkip).2.1 _).mpr ⟨[("limit", "5")], ("skip", "-1"),
      [("limit", "0"), ("skip", "3")], rfl, hlimit, .skipNotNatural (by decide)⟩
  · exact ((parameters_say_last_values refusedOrder).2.1 _).mpr ⟨[("order_by", "-1")],
      ("order_by", "up"), [("order_by", "1")], rfl, horder, .orderNotInteger (by decide)⟩

end Params

end RunTable
