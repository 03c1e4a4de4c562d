import RunTable.Proofs.ValueEquality

/-!
# Conditions on a field and their spelling with logical operators

Much of what can be said under one field can be said of it several times over, with a logical
operator around: a list of accepted values as a choice between them, a negation as a filter that no
document may pass, an object of operators as one condition for each of them. The two spellings take
different ways through the evaluator. The first looks up the values at the path once and goes
through the list for them; the second starts from the document again for every term. They come to
the same because a condition on one field depends on the document only through what is found at
that field, and because both ways go through their parts in the same order and stop at the same one.

So the proofs go through one part at a time. The first section says what a single clause and a
single operator come to, and that a list of them is its first one and then the others.
-/

namespace RunTable.Filter

open Json Outcome

variable {path key name : String} {doc condition target value : Json} {logical : Logical}
  {test : Test} {operators : List (String × Json)} {terms values : List Json}

/-! ## One part at a time -/

/-- Behind the last test nothing is left to ask. -/
theorem ite_bind_true {ε : Type} (x : Except ε Bool) :
    (do if ← x then .ok true else return false) = x := by
  cases x with
  | error cause => rfl
  | ok b => cases b <;> rfl

theorem ite_bind_false {ε : Type} (x : Except ε Bool) :
    (do if ← x then return true else .ok false) = x := by
  cases x with
  | error cause => rfl
  | ok b => cases b <;> rfl

theorem holds_single (key : String) (condition doc : Json) :
    holds (.single key condition) doc = clausesHold [(key, condition)] doc := by
  rw [single, holds]

/-- A filter asks for its first clause, and for the others if that one holds. -/
theorem clausesHold_cons (clause : String × Json) (clauses : List (String × Json)) (doc : Json) :
    clausesHold (clause :: clauses) doc = (do
      if ← holds (.single clause.1 clause.2) doc then clausesHold clauses doc
      else return false) := by
  obtain ⟨key, condition⟩ := clause
  rw [holds_single, clausesHold.eq_def, clausesHold.eq_def [(key, condition)]]
  simp only [clausesHold]
  by_cases hkey : isOperator key = true
  · simp only [hkey, if_true]
    split <;> rw [ite_bind_true]
  · simp only [hkey, Bool.false_eq_true, if_false, ite_bind_true]

theorem holds_field (hpath : isOperator path = false) (condition doc : Json) :
    holds (.single path condition) doc = fieldHolds condition doc path := by
  rw [holds_single, clausesHold.eq_def]
  simp only [hpath, Bool.false_eq_true, if_false, clausesHold]
  exact ite_bind_true _

theorem isOperator_of_logical (hkey : Logical.ofName? key = some logical) :
    isOperator key = true := by
  unfold Logical.ofName? at hkey
  split at hkey <;> first | decide | cases hkey

/-- What a logical operator makes of its terms. -/
def Logical.join (terms : List Json) (doc : Json) : Logical → Except EvalError Bool
  | and => allHold terms doc
  | or => anyHolds terms doc
  | nor => (anyHolds terms doc).map (!·)

theorem holds_logical (hkey : Logical.ofName? key = some logical) (hterms : terms ≠ [])
    (doc : Json) : holds (.single key (.arr terms)) doc = logical.join terms doc := by
  obtain ⟨term, terms, rfl⟩ := List.exists_cons_of_ne_nil hterms
  rw [holds_single, clausesHold.eq_def]
  simp only [isOperator_of_logical hkey, if_true, hkey, clausesHold]
  cases logical <;> exact ite_bind_true _

/-- A condition asks for its first operator, and for the others if that one holds. -/
theorem operatorsHold_cons (operator : String × Json) (operators : List (String × Json))
    (doc : Json) (path : String) :
    operatorsHold (operator :: operators) doc path = (do
      if ← operatorsHold [operator] doc path then operatorsHold operators doc path
      else return false) := by
  obtain ⟨name, argument⟩ := operator
  rw [operatorsHold.eq_def, operatorsHold.eq_def [(name, argument)]]
  simp only [operatorsHold]
  cases Operator.ofName? name with
  | none => rfl
  | some operator =>
      cases operator with
      | not | test test => simp only [ite_bind_true]
      | someItem =>
          dsimp only
          split <;> rw [ite_bind_true]

theorem operatorsHold_test (hname : Operator.ofName? name = some (.test test))
    (argument doc : Json) (path : String) :
    operatorsHold [(name, argument)] doc path = test.holds argument doc path := by
  rw [operatorsHold.eq_def]
  simp only [hname, operatorsHold]
  exact ite_bind_true _

theorem operatorsHold_not (hname : Operator.ofName? name = some .not) (condition doc : Json)
    (path : String) :
    operatorsHold [(name, condition)] doc path = (fieldHolds condition doc path).map (!·) := by
  rw [operatorsHold.eq_def]
  simp only [hname, operatorsHold]
  exact ite_bind_true _

theorem operatorsHold_someItem (hname : Operator.ofName? name = some .someItem)
    (argument doc : Json) (path : String) :
    operatorsHold [(name, argument)] doc path =
      match Document.get? path doc with
      | some (.arr items) =>
        items.anyM fun item =>
          if isOperatorObject argument then fieldHolds argument (.single itemField item) itemField
          else holds argument item
      | _ => .ok false := by
  rw [operatorsHold.eq_def]
  simp only [hname, operatorsHold]
  cases Document.get? path doc with
  | none => rfl
  | some found =>
      cases found with
      | arr items => exact ite_bind_true _
      | _ => rfl

theorem fieldHolds_operators (h : isOperatorObject (.obj operators) = true) (doc : Json)
    (path : String) :
    fieldHolds (.obj operators) doc path = operatorsHold operators doc path := by
  rw [fieldHolds, if_pos h]

theorem fieldHolds_value (h : isOperatorObject condition = false) (doc : Json) (path : String) :
    fieldHolds condition doc path
      = .ok (equalsAny (Document.candidates path doc) condition) := by
  cases condition with
  | obj members => rw [fieldHolds, h, if_neg Bool.false_ne_true]
  | _ =>
      rw [fieldHolds]
      exact fun _ => Json.noConfusion

theorem isOperator_of_ofName? {operator : Operator}
    (hname : Operator.ofName? name = some operator) : isOperator name = true := by
  unfold Operator.ofName? at hname
  split at hname <;> first | decide | cases hname

theorem isOperatorObject_single (hname : isOperator name = true) (argument : Json) :
    isOperatorObject (.single name argument) = true := by
  rw [single, isOperatorObject, List.all_cons, hname]
  rfl

/-- A single operator under a field decides alone. -/
theorem holds_operator (hpath : isOperator path = false) (hname : isOperator name = true)
    (argument doc : Json) : holds (.single path (.single name argument)) doc
      = operatorsHold [(name, argument)] doc path := by
  rw [holds_field hpath]
  exact fieldHolds_operators (isOperatorObject_single hname argument) doc path

theorem holds_test (hpath : isOperator path = false)
    (hname : Operator.ofName? name = some (.test test)) (argument doc : Json) :
    holds (.single path (.single name argument)) doc = test.holds argument doc path := by
  rw [holds_operator hpath (isOperator_of_ofName? hname), operatorsHold_test hname]

theorem holds_equal (hpath : isOperator path = false) (target doc : Json) :
    holds (.single path (.single "$eq" target)) doc
      = .ok (equalsAny (Document.candidates path doc) target) :=
  holds_test hpath (show Operator.ofName? "$eq" = _ from rfl) target doc

/-! ## Lists of values -/

/-- Terms that each ask for a value ask whether one of the values is found. -/
theorem anyHolds_values (hpath : isOperator path = false)
    (h : ∀ value ∈ values, isOperatorObject value = false) (doc : Json) :
    anyHolds (values.map (.single path)) doc
      = .ok (values.any (equalsAny (Document.candidates path doc))) := by
  induction values with
  | nil => rfl
  | cons value values ih =>
      rw [List.map_cons, anyHolds, holds_field hpath,
        fieldHolds_value (h value List.mem_cons_self), ok_bind,
        ih fun other hother => h other (List.mem_cons_of_mem _ hother), List.any_cons]
      cases equalsAny (Document.candidates path doc) value <;> rfl

/-- Terms that each ask for a value ask together whether all of the values are found. -/
theorem allHold_values (hpath : isOperator path = false)
    (h : ∀ value ∈ values, isOperatorObject value = false) (doc : Json) :
    allHold (values.map (.single path)) doc
      = .ok (values.all (equalsAny (Document.candidates path doc))) := by
  induction values with
  | nil => rfl
  | cons value values ih =>
      rw [List.map_cons, allHold, holds_field hpath,
        fieldHolds_value (h value List.mem_cons_self), ok_bind,
        ih fun other hother => h other (List.mem_cons_of_mem _ hother), List.all_cons]
      cases equalsAny (Document.candidates path doc) value <;> rfl

theorem holds_oneOf (hpath : isOperator path = false) (hvalues : values ≠ [])
    (h : ∀ value ∈ values, isOperatorObject value = false) (doc : Json) :
    holds (.single path (.single "$in" (.arr values))) doc
      = holds (.single "$or" (.arr (values.map (.single path)))) doc := by
  have hor : Logical.ofName? "$or" = some .or := rfl
  have hterms : values.map (single path) ≠ [] := by simpa using hvalues
  rw [holds_test hpath (show Operator.ofName? "$in" = _ from rfl), holds_logical hor hterms,
    Logical.join, anyHolds_values hpath h]
  rfl

theorem holds_noneOf (hpath : isOperator path = false) (hvalues : values ≠ [])
    (h : ∀ value ∈ values, isOperatorObject value = false) (doc : Json) :
    holds (.single path (.single "$nin" (.arr values))) doc
      = holds (.single "$nor" (.arr (values.map (.single path)))) doc := by
  have hnor : Logical.ofName? "$nor" = some .nor := rfl
  have hterms : values.map (single path) ≠ [] := by simpa using hvalues
  rw [holds_test hpath (show Operator.ofName? "$nin" = _ from rfl), holds_logical hnor hterms,
    Logical.join, anyHolds_values hpath h]
  rfl

theorem holds_hasAll (hpath : isOperator path = false) (hvalues : values ≠ [])
    (h : ∀ value ∈ values, isOperatorObject value = false) (doc : Json) :
    holds (.single path (.single "$all" (.arr values))) doc
      = holds (.single "$and" (.arr (values.map (.single path)))) doc := by
  have hand : Logical.ofName? "$and" = some .and := rfl
  have hterms : values.map (single path) ≠ [] := by simpa using hvalues
  rw [holds_test hpath (show Operator.ofName? "$all" = _ from rfl), holds_logical hand hterms,
    Logical.join, allHold_values hpath h]
  obtain ⟨value, values, rfl⟩ := List.exists_cons_of_ne_nil hvalues
  rfl

/-! ## Negations and objects of operators -/

/-- A condition holds if the only term that asks for it does. -/
theorem anyHolds_field (hpath : isOperator path = false) (condition doc : Json) :
    anyHolds [.single path condition] doc = fieldHolds condition doc path := by
  rw [anyHolds, holds_field hpath]
  exact ite_bind_false _

theorem holds_negation (hpath : isOperator path = false) (condition doc : Json) :
    holds (.single path (.single "$not" condition)) doc
      = holds (.single "$nor" (.arr [.single path condition])) doc := by
  have hnot : Operator.ofName? "$not" = some .not := rfl
  have hnor : Logical.ofName? "$nor" = some .nor := rfl
  rw [holds_operator hpath (isOperator_of_ofName? hnot), operatorsHold_not hnot,
    holds_logical hnor (List.cons_ne_nil _ _), Logical.join, anyHolds_field hpath]

/-- Terms that each apply one of the operators of a condition apply them all. -/
theorem allHold_operators (hpath : isOperator path = false)
    (h : ∀ operator ∈ operators, isOperator operator.1 = true) (doc : Json) :
    allHold (operators.map fun operator => .single path (.single operator.1 operator.2)) doc
      = operatorsHold operators doc path := by
  induction operators with
  | nil => rfl
  | cons operator operators ih =>
      rw [List.map_cons, allHold, holds_operator hpath (h operator List.mem_cons_self),
        ih fun other hother => h other (List.mem_cons_of_mem _ hother),
        operatorsHold_cons operator operators]

theorem holds_operators (hpath : isOperator path = false)
    (h : isOperatorObject (.obj operators) = true) (doc : Json) :
    holds (.single path (.obj operators)) doc
      = holds (.single "$and" (.arr (operators.map fun operator =>
          .single path (.single operator.1 operator.2)))) doc := by
  have hand : Logical.ofName? "$and" = some .and := rfl
  have hne : operators ≠ [] := by
    rintro rfl
    cases h
  have hall : ∀ operator ∈ operators, isOperator operator.1 = true := by
    rw [isOperatorObject, Bool.and_eq_true, List.all_eq_true] at h
    exact h.2
  rw [holds_field hpath, fieldHolds_operators h, holds_logical hand (by simpa using hne),
    Logical.join, allHold_operators hpath hall]

/-! ## Comparisons that admit equality

On scalars of one kind being level is being equal. Only null would be in the way, since it equals a
missing value, with which nothing can be level. -/

theorem isScalar_of_kindRank_eq (h : value.kindRank = target.kindRank) :
    value.isScalar = target.isScalar := by
  cases value <;> cases target <;> first | rfl | cases h

theorem equal_eq_level (htarget : target.isScalar = true) (value : Json) :
    value.equal target = (value.sameKind target && value.cmp target == .eq) := by
  rw [Bool.eq_iff_iff, Bool.and_eq_true, beq_iff_eq, sameKind, beq_iff_eq]
  constructor
  · intro h
    have hscalar : value.isScalar = true := by
      cases value with
      | arr items =>
          obtain ⟨_, rfl⟩ := exists_arr_of_equal h
          cases htarget
      | obj members =>
          obtain ⟨_, rfl⟩ := exists_obj_of_equal h
          cases htarget
      | _ => rfl
    have hlevel := (equal_iff_cmp_eq hscalar).mp h
    exact ⟨kindRank_eq_of_cmp_eq hlevel, hlevel⟩
  · rintro ⟨hkind, hlevel⟩
    exact (equal_iff_cmp_eq ((isScalar_of_kindRank_eq hkind).trans htarget)).mpr hlevel

/-- To accept what is level as well is to look for an equal value as well. -/
theorem comparesAny_or_equalsAny {strict wide : Ordering → Bool} (htarget : target.isScalar = true)
    (hnull : target.isNull = false) (hwide : ∀ order, wide order = (strict order || order == .eq))
    (values : List Json) : comparesAny wide values target
      = (comparesAny strict values target || equalsAny values target) := by
  rw [comparesAny, comparesAny, equalsAny, hnull, Bool.false_and, Bool.false_or]
  induction values with
  | nil => rfl
  | cons value values ih =>
      rw [List.any_cons, List.any_cons, List.any_cons, ih, hwide, equal_eq_level htarget,
        Bool.and_or_distrib_left]
      simp only [Bool.or_assoc, Bool.or_left_comm]

theorem anyHolds_pair {first second : Json} {b c : Bool} (hfirst : holds first doc = .ok b)
    (hsecond : holds second doc = .ok c) : anyHolds [first, second] doc = .ok (b || c) := by
  rw [anyHolds, hfirst, ok_bind, anyHolds, hsecond]
  cases b <;> cases c <;> rfl

/-- A comparison that accepts what is level is the choice between the strict one and equality. -/
theorem holds_orEqual {wideName strictName : String} {wideTest strictTest : Test}
    {wide strict : Ordering → Bool} (hpath : isOperator path = false)
    (hwide : Operator.ofName? wideName = some (.test wideTest))
    (hstrict : Operator.ofName? strictName = some (.test strictTest))
    (hwideHolds : wideTest.holds target doc path
      = .ok (comparesAny wide (Document.candidates path doc) target))
    (hstrictHolds : strictTest.holds target doc path
      = .ok (comparesAny strict (Document.candidates path doc) target))
    (horder : ∀ order, wide order = (strict order || order == .eq))
    (htarget : target.isScalar = true) (hnull : target.isNull = false) :
    holds (.single path (.single wideName target)) doc
      = holds (.single "$or" (.arr [.single path (.single strictName target),
          .single path (.single "$eq" target)])) doc := by
  have hor : Logical.ofName? "$or" = some .or := rfl
  have hfirst : holds (.single path (.single strictName target)) doc
      = .ok (comparesAny strict (Document.candidates path doc) target) :=
    (holds_test hpath hstrict target doc).trans hstrictHolds
  rw [holds_test hpath hwide, hwideHolds, holds_logical hor (List.cons_ne_nil _ _), Logical.join,
    anyHolds_pair hfirst (holds_equal hpath target doc),
    comparesAny_or_equalsAny htarget hnull horder]

/-! ## All of them -/

/-- Conditions on one field agree with what they come to when they are spelled out: a list of values
as a choice, a refusal or a demand of each of them, a negation as a refusal of the condition, an
object of operators as one condition for each operator, and a comparison that admits equality as the
choice between the strict one and equality. They agree in errors as well as in verdicts. -/
theorem conditions_spelled_out (hpath : isOperator path = false) (doc : Json) :
    (∀ values : List Json, values ≠ [] → (∀ value ∈ values, isOperatorObject value = false) →
        holds (.single path (.single "$in" (.arr values))) doc
            = holds (.single "$or" (.arr (values.map (.single path)))) doc
          ∧ holds (.single path (.single "$nin" (.arr values))) doc
            = holds (.single "$nor" (.arr (values.map (.single path)))) doc
          ∧ holds (.single path (.single "$all" (.arr values))) doc
            = holds (.single "$and" (.arr (values.map (.single path)))) doc)
      ∧ (∀ condition : Json, holds (.single path (.single "$not" condition)) doc
          = holds (.single "$nor" (.arr [.single path condition])) doc)
      ∧ (∀ operators : List (String × Json), isOperatorObject (.obj operators) = true →
        holds (.single path (.obj operators)) doc
          = holds (.single "$and" (.arr (operators.map fun operator =>
              .single path (.single operator.1 operator.2)))) doc)
      ∧ ∀ target : Json, target.isScalar = true → target.isNull = false →
        holds (.single path (.single "$gte" target)) doc
            = holds (.single "$or" (.arr [.single path (.single "$gt" target),
                .single path (.single "$eq" target)])) doc
          ∧ holds (.single path (.single "$lte" target)) doc
            = holds (.single "$or" (.arr [.single path (.single "$lt" target),
                .single path (.single "$eq" target)])) doc := by
  refine ⟨fun values hvalues hplain => ⟨?_, ?_, ?_⟩, fun condition => ?_, fun operators h => ?_,
    fun target htarget hnull => ⟨?_, ?_⟩⟩
  · exact holds_oneOf hpath hvalues hplain doc
  · exact holds_noneOf hpath hvalues hplain doc
  · exact holds_hasAll hpath hvalues hplain doc
  · exact holds_negation hpath condition doc
  · exact holds_operators hpath h doc
  · exact holds_orEqual hpath (show Operator.ofName? "$gte" = some (.test .atLeast) from rfl)
      (show Operator.ofName? "$gt" = some (.test .above) from rfl) rfl rfl (by decide) htarget hnull
  · exact holds_orEqual hpath (show Operator.ofName? "$lte" = some (.test .atMost) from rfl)
      (show Operator.ofName? "$lt" = some (.test .below) from rfl) rfl rfl (by decide) htarget hnull

/-- One of two values is found in an array, a missing value is level with nothing, and the second of
two operators is refused in either spelling. -/
theorem conditions_spelled_out_of_array :
    let doc : Json := .obj [("tags", .arr [.str "a", .int 2])]
    let values : List Json := [.str "b", .int 2]
    let operators : List (String × Json) := [("$exists", .bool true), ("$near", .int 1)]
    isOperator "tags" = false ∧ (∀ value ∈ values, isOperatorObject value = false)
      ∧ isOperatorObject (.obj operators) = true
      ∧ holds (.single "$or" (.arr (values.map (.single "tags")))) doc = .ok true
      ∧ holds (.single "$nor" (.arr (values.map (.single "tags")))) doc = .ok false
      ∧ holds (.single "$and" (.arr (values.map (.single "tags")))) doc = .ok false
      ∧ holds (.single "$nor" (.arr [.single "tags" (.str "a")])) doc = .ok false
      ∧ holds (.single "$and" (.arr (operators.map fun operator =>
          .single "tags" (.single operator.1 operator.2)))) doc
        = .error (.unknownOperator "$near")
      ∧ holds (.single "$or" (.arr [.single "tags" (.single "$gt" (.int 2)),
          .single "tags" (.single "$eq" (.int 2))])) doc = .ok true
      ∧ holds (.single "$or" (.arr [.single "tags" (.single "$lt" (.str "A")),
          .single "tags" (.single "$eq" (.str "A"))])) doc = .ok false := by
  intro doc values operators
  have hpath : isOperator "tags" = false := by decide
  have hplain : ∀ value ∈ values, isOperatorObject value = false := by decide
  have hoperators : isOperatorObject (.obj operators) = true := by decide
  obtain ⟨hlists, hnegation, hobjects, hcomparisons⟩ := conditions_spelled_out hpath doc
  obtain ⟨hin, hnin, hall⟩ := hlists values (List.cons_ne_nil _ _) hplain
  obtain ⟨hatLeast, -⟩ := hcomparisons (.int 2) rfl rfl
  obtain ⟨-, hatMost⟩ := hcomparisons (.str "A") rfl rfl
  refine ⟨hpath, hplain, hoperators, ?_, ?_, ?_, ?_, ?_, ?_, ?_⟩
  · exact hin ▸ toOption_eq_some.mp (by decide +kernel)
  · exact hnin ▸ toOption_eq_some.mp (by decide +kernel)
  · exact hall ▸ toOption_eq_some.mp (by decide +kernel)
  · exact hnegation _ ▸ toOption_eq_some.mp (by decide +kernel)
  · exact hobjects operators hoperators ▸ rfl
  · exact hatLeast ▸ toOption_eq_some.mp (by decide +kernel)
  · exact hatMost ▸ toOption_eq_some.mp (by decide +kernel)

end RunTable.Filter
