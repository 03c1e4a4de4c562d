import RunTable.Proofs.FilterSpellings

/-!
# Well-formed filters decide on every document

What can go wrong with a filter is a matter of the filter alone: a term that is no object, a logical
operator without terms, an operator that does not exist, or one that lacks its list. The documents
have no part in it, since an operator that finds nothing to work on does not hold. So the match
language can be written down as rules: what a filter may consist of, what may stand under a field
and under each operator.

One rule leaves a choice. An item of an array can be tested by operators or by a filter, and a
filter may consist of logical operators alone. But there an object whose keys are all operators is
read as a condition on the item, and a logical operator is none of those that a condition knows. So
a filter of this kind is refused under `$elemMatch`, although it is one of the filters that the
rules admit everywhere. Hence two languages, with and without that case. In the smaller one every
filter has a verdict on every document. In the larger one a filter can fail, but in no other way
than by this refusal.

The smaller language is also a check of the filter, with one case for each way in which a filter is
taken apart.
-/

namespace RunTable.Filter

open Json Outcome

variable {lone : Bool} {path name : String} {doc filter : Json}
  {operators clauses : List (String × Json)} {terms : List Json}

/-! ## The rules -/

/-- Whether a test is applied to what it needs: a list, or anything. -/
def Test.takes (test : Test) (argument : Json) : Bool :=
  match test, argument with
  | oneOf, .arr _ | noneOf, .arr _ | hasAll, .arr _ => true
  | oneOf, _ | noneOf, _ | hasAll, _ => false
  | _, _ => true

mutual

/-- A filter has clauses. If `lone` is set, logical operators may stand alone under `$elemMatch`. -/
inductive IsFilter (lone : Bool) : Json → Prop
  | clauses {clauses : List (String × Json)}
      (h : ∀ clause ∈ clauses, IsClause lone clause.1 clause.2) : IsFilter lone (.obj clauses)

/-- A clause joins filters by a logical operator, or puts a condition on a field. -/
inductive IsClause (lone : Bool) : String → Json → Prop
  | logical {key : String} {logical : Logical} {terms : List Json}
      (hkey : Logical.ofName? key = some logical) (hterms : terms ≠ [])
      (h : ∀ term ∈ terms, IsFilter lone term) : IsClause lone key (.arr terms)
  | field {path : String} {condition : Json} (hpath : isOperator path = false)
      (h : IsCondition lone condition) : IsClause lone path condition

/-- A condition is a value to be equal, or made of operations. -/
inductive IsCondition (lone : Bool) : Json → Prop
  | value {value : Json} (h : isOperatorObject value = false) : IsCondition lone value
  | operations {operators : List (String × Json)}
      (hobject : isOperatorObject (.obj operators) = true)
      (h : ∀ operator ∈ operators, IsOperation lone operator.1 operator.2) :
      IsCondition lone (.obj operators)

/-- An operation applies an operator to what it needs. -/
inductive IsOperation (lone : Bool) : String → Json → Prop
  | test {name : String} {test : Test} {argument : Json}
      (hname : Operator.ofName? name = some (.test test)) (h : test.takes argument = true) :
      IsOperation lone name argument
  | not {name : String} {condition : Json} (hname : Operator.ofName? name = some .not)
      (h : IsCondition lone condition) : IsOperation lone name condition
  | itemCondition {name : String} {condition : Json}
      (hname : Operator.ofName? name = some .someItem)
      (hobject : isOperatorObject condition = true) (h : IsCondition lone condition) :
      IsOperation lone name condition
  | itemFilter {name : String} {filter : Json} (hname : Operator.ofName? name = some .someItem)
      (hlone : isOperatorObject filter = true → lone = true) (h : IsFilter lone filter) :
      IsOperation lone name filter

end

/-! ## What evaluation comes to -/

/-- A verdict, or, where logical operators may stand alone, the refusal of one as an operator on a
field. -/
def Decided (lone : Bool) (outcome : Except EvalError Bool) : Prop :=
  (∃ b, outcome = .ok b)
    ∨ lone = true ∧ ∃ name, (Logical.ofName? name).isSome = true
      ∧ outcome = .error (.unknownOperator name)

variable {x rest : Except EvalError Bool}

theorem Decided.ok (b : Bool) : Decided lone (.ok b) := .inl ⟨b, rfl⟩

theorem Decided.map_not (h : Decided lone x) : Decided lone (x.map (!·)) := by
  obtain ⟨b, rfl⟩ | ⟨hlone, name, hname, rfl⟩ := h
  · exact .ok (!b)
  · exact .inr ⟨hlone, name, hname, rfl⟩

/-- What goes on from a verdict is decided if it is from either one. -/
theorem Decided.bind {f : Bool → Except EvalError Bool} (h : Decided lone x)
    (hf : ∀ b, Decided lone (f b)) : Decided lone (x >>= f) := by
  obtain ⟨b, rfl⟩ | ⟨hlone, name, hname, rfl⟩ := h
  · exact hf b
  · exact .inr ⟨hlone, name, hname, rfl⟩

theorem Decided.and_then (h : Decided lone x) (hrest : Decided lone rest) :
    Decided lone (do if ← x then rest else return false) := by
  refine h.bind fun b => ?_
  cases b with
  | true => exact hrest
  | false => exact .ok false

theorem Decided.or_else (h : Decided lone x) (hrest : Decided lone rest) :
    Decided lone (do if ← x then return true else rest) := by
  refine h.bind fun b => ?_
  cases b with
  | true => exact .ok true
  | false => exact hrest

theorem allHold_decided (h : ∀ term ∈ terms, Decided lone (holds term doc)) :
    Decided lone (allHold terms doc) := by
  induction terms with
  | nil => exact .ok true
  | cons term terms ih =>
      rw [allHold]
      exact (h term List.mem_cons_self).and_then
        (ih fun other hother => h other (List.mem_cons_of_mem _ hother))

theorem anyHolds_decided (h : ∀ term ∈ terms, Decided lone (holds term doc)) :
    Decided lone (anyHolds terms doc) := by
  induction terms with
  | nil => exact .ok false
  | cons term terms ih =>
      rw [anyHolds]
      exact (h term List.mem_cons_self).or_else
        (ih fun other hother => h other (List.mem_cons_of_mem _ hother))

theorem clausesHold_decided
    (h : ∀ clause ∈ clauses, Decided lone (holds (.single clause.1 clause.2) doc)) :
    Decided lone (clausesHold clauses doc) := by
  induction clauses with
  | nil => exact .ok true
  | cons clause clauses ih =>
      rw [clausesHold_cons]
      exact (h clause List.mem_cons_self).and_then
        (ih fun other hother => h other (List.mem_cons_of_mem _ hother))

theorem operatorsHold_decided
    (h : ∀ operator ∈ operators, Decided lone (operatorsHold [operator] doc path)) :
    Decided lone (operatorsHold operators doc path) := by
  induction operators with
  | nil => exact .ok true
  | cons operator operators ih =>
      rw [operatorsHold_cons]
      exact (h operator List.mem_cons_self).and_then
        (ih fun other hother => h other (List.mem_cons_of_mem _ hother))

theorem join_decided (h : ∀ term ∈ terms, Decided lone (holds term doc)) (logical : Logical) :
    Decided lone (logical.join terms doc) := by
  cases logical with
  | and => exact allHold_decided h
  | or => exact anyHolds_decided h
  | nor => exact (anyHolds_decided h).map_not

/-- Items are tested in turn, if there are any. -/
theorem someItem_decided {test : Json → Except EvalError Bool}
    (h : ∀ item, Decided lone (test item)) (found : Option Json) :
    Decided lone (match found with
      | some (.arr items) => items.anyM test
      | _ => .ok false) := by
  split
  · next items =>
      induction items with
      | nil => exact .ok false
      | cons item items ih =>
          rw [List.anyM]
          refine (h item).bind fun b => ?_
          cases b with
          | true => exact .ok true
          | false => exact ih
  · exact .ok false

theorem Test.holds_ok {test : Test} {argument : Json} (h : test.takes argument = true) (doc : Json)
    (path : String) : ∃ b, test.holds argument doc path = .ok b := by
  cases test with
  | oneOf | noneOf | hasAll =>
      cases argument with
      | arr items => exact ⟨_, rfl⟩
      | _ => cases h
  | size =>
      rw [Test.holds]
      split <;> exact ⟨_, rfl⟩
  | _ => exact ⟨_, rfl⟩

/-- No logical operator is an operator on a field. -/
theorem operator_ofName?_of_logical {logical : Logical} (h : Logical.ofName? name = some logical) :
    Operator.ofName? name = none := by
  unfold Logical.ofName? at h
  split at h <;> first | rfl | cases h

/-- Logical operators that stand alone are refused as a condition on a field. -/
theorem IsFilter.refused (h : IsFilter lone filter) (hobject : isOperatorObject filter = true)
    (doc : Json) (path : String) : ∃ name, (Logical.ofName? name).isSome = true
      ∧ fieldHolds filter doc path = .error (.unknownOperator name) := by
  obtain @⟨clauses, h⟩ := h
  rw [fieldHolds_operators hobject]
  rw [isOperatorObject, Bool.and_eq_true, Bool.not_eq_true', List.isEmpty_eq_false_iff,
    List.all_eq_true] at hobject
  obtain ⟨⟨name, condition⟩, clauses, rfl⟩ := List.exists_cons_of_ne_nil hobject.1
  have hoperator : isOperator name = true := hobject.2 _ List.mem_cons_self
  cases h _ List.mem_cons_self with
  | logical hkey hterms hall =>
      refine ⟨name, by rw [hkey]; rfl, ?_⟩
      rw [operatorsHold.eq_def]
      simp only [operator_ofName?_of_logical hkey]
      rfl
  | field hpath hcondition =>
      rw [hoperator] at hpath
      cases hpath

mutual

/-- A filter of the language fails in no other way than by a logical operator that stands alone. -/
theorem IsFilter.decided {filter : Json} (h : IsFilter lone filter) (doc : Json) :
    Decided lone (holds filter doc) := by
  match filter, h with
  | .obj clauses, .clauses hclauses =>
      have hall : ∀ clause ∈ clauses, Decided lone (holds (.single clause.1 clause.2) doc) :=
        fun clause hclause => (hclauses clause hclause).decided doc
      rw [holds]
      exact clausesHold_decided hall
termination_by structural h

theorem IsClause.decided {key : String} {condition : Json} (h : IsClause lone key condition)
    (doc : Json) : Decided lone (holds (.single key condition) doc) := by
  match condition, h with
  | .arr terms, .logical hkey hterms hfilters =>
      have hall : ∀ term ∈ terms, Decided lone (holds term doc) :=
        fun term hterm => (hfilters term hterm).decided doc
      rw [holds_logical hkey hterms]
      exact join_decided hall _
  | condition, .field hpath hcondition =>
      rw [holds_field hpath]
      exact hcondition.decided doc key
termination_by structural h

theorem IsCondition.decided {condition : Json} (h : IsCondition lone condition) (doc : Json)
    (path : String) : Decided lone (fieldHolds condition doc path) := by
  match condition, h with
  | value, .value hvalue =>
      rw [fieldHolds_value hvalue]
      exact .ok _
  | .obj operators, .operations hobject hoperations =>
      have hall : ∀ operator ∈ operators, Decided lone (operatorsHold [operator] doc path) :=
        fun operator hoperator => (hoperations operator hoperator).decided doc path
      rw [fieldHolds_operators hobject]
      exact operatorsHold_decided hall
termination_by structural h

theorem IsOperation.decided {name : String} {argument : Json} (h : IsOperation lone name argument)
    (doc : Json) (path : String) : Decided lone (operatorsHold [(name, argument)] doc path) := by
  match h with
  | .test hname htakes =>
      rw [operatorsHold_test hname]
      exact .inl (Test.holds_ok htakes doc path)
  | .not hname hcondition =>
      have hdecided : Decided lone (fieldHolds argument doc path) := hcondition.decided doc path
      rw [operatorsHold_not hname]
      exact hdecided.map_not
  | .itemCondition hname hobject hcondition =>
      have hdecided : ∀ item : Json,
          Decided lone (fieldHolds argument (.single itemField item) itemField) :=
        fun item => hcondition.decided _ _
      rw [operatorsHold_someItem hname]
      refine someItem_decided (fun item => ?_) _
      rw [if_pos hobject]
      exact hdecided item
  | .itemFilter hname hlone hfilter =>
      have hdecided : ∀ item : Json, Decided lone (holds argument item) :=
        fun item => hfilter.decided item
      rw [operatorsHold_someItem hname]
      refine someItem_decided (fun item => ?_) _
      cases hobject : isOperatorObject argument with
      | true => exact .inr ⟨hlone hobject, hfilter.refused hobject _ _⟩
      | false => exact hdecided item
termination_by structural h

end

/-- A filter of the smaller language has a verdict on every document. -/
theorem IsFilter.holds_ok (h : IsFilter false filter) (doc : Json) :
    ∃ b, holds filter doc = .ok b :=
  (h.decided doc).resolve_right fun hrefused => nomatch hrefused.1

/-! ## The smaller language as a check -/

mutual

/-- Whether a filter is an object of conditions on fields and of logical operators over filters. -/
def isWellFormed : Json → Bool
  | .obj clauses => clausesWellFormed clauses
  | _ => false
termination_by structural filter => filter

def clausesWellFormed : List (String × Json) → Bool
  | [] => true
  | (key, condition) :: clauses =>
    (if isOperator key then
        match Logical.ofName? key, condition with
        | some _, .arr (term :: terms) => termsWellFormed (term :: terms)
        | _, _ => false
      else conditionWellFormed condition) && clausesWellFormed clauses
termination_by structural clauses => clauses

def termsWellFormed : List Json → Bool
  | [] => true
  | term :: terms => isWellFormed term && termsWellFormed terms
termination_by structural terms => terms

/-- Whether a condition on a field is a value to be equal, or an object of operators that are
applied to what they need. -/
def conditionWellFormed : Json → Bool
  | .obj operators => !isOperatorObject (.obj operators) || operatorsWellFormed operators
  | _ => true
termination_by structural condition => condition

def operatorsWellFormed : List (String × Json) → Bool
  | [] => true
  | (name, argument) :: operators =>
    (match Operator.ofName? name with
      | none => false
      | some .not => conditionWellFormed argument
      | some .someItem =>
        if isOperatorObject argument then conditionWellFormed argument else isWellFormed argument
      | some (.test test) => test.takes argument) && operatorsWellFormed operators
termination_by structural operators => operators

end

theorem clausesWellFormed_iff : clausesWellFormed clauses = true
    ↔ ∀ clause ∈ clauses, clausesWellFormed [clause] = true := by
  induction clauses with
  | nil => exact ⟨fun _ _ hclause => absurd hclause List.not_mem_nil, fun _ => rfl⟩
  | cons clause clauses ih =>
      rw [List.forall_mem_cons, ← ih, clausesWellFormed.eq_def, clausesWellFormed.eq_def [clause],
        Bool.and_eq_true, Bool.and_eq_true]
      simp [clausesWellFormed]

theorem termsWellFormed_iff : termsWellFormed terms = true
    ↔ ∀ term ∈ terms, isWellFormed term = true := by
  induction terms with
  | nil => exact ⟨fun _ _ hterm => absurd hterm List.not_mem_nil, fun _ => rfl⟩
  | cons term terms ih => rw [termsWellFormed, Bool.and_eq_true, ih, List.forall_mem_cons]

theorem operatorsWellFormed_iff : operatorsWellFormed operators = true
    ↔ ∀ operator ∈ operators, operatorsWellFormed [operator] = true := by
  induction operators with
  | nil => exact ⟨fun _ _ hoperator => absurd hoperator List.not_mem_nil, fun _ => rfl⟩
  | cons operator operators ih =>
      rw [List.forall_mem_cons, ← ih, operatorsWellFormed, operatorsWellFormed,
        Bool.and_eq_true, Bool.and_eq_true]
      simp [operatorsWellFormed]

mutual

theorem IsFilter.check {filter : Json} (h : IsFilter false filter) :
    isWellFormed filter = true := by
  match filter, h with
  | .obj clauses, .clauses hclauses =>
      have hall : ∀ clause ∈ clauses, clausesWellFormed [clause] = true :=
        fun clause hclause => (hclauses clause hclause).check
      rw [isWellFormed]
      exact clausesWellFormed_iff.mpr hall
termination_by structural h

theorem IsClause.check {key : String} {condition : Json} (h : IsClause false key condition) :
    clausesWellFormed [(key, condition)] = true := by
  rw [clausesWellFormed.eq_def, Bool.and_eq_true]
  refine ⟨?_, rfl⟩
  match condition, h with
  | .arr terms, .logical hkey hterms hfilters =>
      have hall : ∀ term ∈ terms, isWellFormed term = true :=
        fun term hterm => (hfilters term hterm).check
      obtain ⟨term, terms, rfl⟩ := List.exists_cons_of_ne_nil hterms
      rw [if_pos (isOperator_of_logical hkey), hkey]
      exact termsWellFormed_iff.mpr hall
  | condition, .field hpath hcondition =>
      rw [hpath, if_neg Bool.false_ne_true]
      exact hcondition.check
termination_by structural h

theorem IsCondition.check {condition : Json} (h : IsCondition false condition) :
    conditionWellFormed condition = true := by
  match condition, h with
  | .obj operators, .value hvalue => rw [conditionWellFormed, hvalue]; rfl
  | .null, .value _ | .bool _, .value _ | .num _, .value _ | .str _, .value _ | .arr _, .value _ =>
      rfl
  | .obj operators, .operations hobject hoperations =>
      have hall : ∀ operator ∈ operators, operatorsWellFormed [operator] = true :=
        fun operator hoperator => (hoperations operator hoperator).check
      rw [conditionWellFormed, operatorsWellFormed_iff.mpr hall, Bool.or_true]
termination_by structural h

theorem IsOperation.check {name : String} {argument : Json} (h : IsOperation false name argument) :
    operatorsWellFormed [(name, argument)] = true := by
  rw [operatorsWellFormed, Bool.and_eq_true]
  refine ⟨?_, rfl⟩
  match h with
  | .test hname htakes => rw [hname]; exact htakes
  | .not hname hcondition => rw [hname]; exact hcondition.check
  | .itemCondition hname hobject hcondition =>
      rw [hname]
      exact (if_pos hobject).trans hcondition.check
  | .itemFilter hname hlone hfilter =>
      have hobject : ¬ isOperatorObject argument = true := fun hobject => by cases hlone hobject
      rw [hname]
      exact (if_neg hobject).trans hfilter.check
termination_by structural h

end

mutual

theorem isFilter_of_check (filter : Json) (h : isWellFormed filter = true) :
    IsFilter false filter := by
  match filter with
  | .obj clauses =>
      rw [isWellFormed] at h
      exact .clauses (clauses_of_check clauses h)
  | .null | .bool _ | .num _ | .str _ | .arr _ => cases h
termination_by structural filter

theorem clauses_of_check (clauses : List (String × Json)) (h : clausesWellFormed clauses = true) :
    ∀ clause ∈ clauses, IsClause false clause.1 clause.2 := by
  match clauses with
  | [] => exact fun _ hclause => absurd hclause List.not_mem_nil
  | (key, condition) :: rest =>
      rw [clausesWellFormed.eq_def, Bool.and_eq_true] at h
      obtain ⟨hfirst, hrest⟩ := h
      refine List.forall_mem_cons.mpr ⟨?_, clauses_of_check rest hrest⟩
      cases hkey : isOperator key with
      | true =>
          rw [hkey, if_pos rfl] at hfirst
          match condition with
          | .arr (term :: terms) =>
              cases hlogical : Logical.ofName? key with
              | none => rw [hlogical] at hfirst; cases hfirst
              | some logical =>
                  rw [hlogical] at hfirst
                  exact .logical hlogical (List.cons_ne_nil _ _)
                    (terms_of_check (term :: terms) hfirst)
          | .arr [] | .null | .bool _ | .num _ | .str _ | .obj _ =>
              cases hlogical : Logical.ofName? key <;> rw [hlogical] at hfirst <;> cases hfirst
      | false =>
          rw [hkey, if_neg Bool.false_ne_true] at hfirst
          exact .field hkey (condition_of_check condition hfirst)
termination_by structural clauses

theorem terms_of_check (terms : List Json) (h : termsWellFormed terms = true) :
    ∀ term ∈ terms, IsFilter false term := by
  match terms with
  | [] => exact fun _ hterm => absurd hterm List.not_mem_nil
  | term :: rest =>
      rw [termsWellFormed, Bool.and_eq_true] at h
      exact List.forall_mem_cons.mpr ⟨isFilter_of_check term h.1, terms_of_check rest h.2⟩
termination_by structural terms

theorem condition_of_check (condition : Json) (h : conditionWellFormed condition = true) :
    IsCondition false condition := by
  match condition with
  | .obj operators =>
      rw [conditionWellFormed, Bool.or_eq_true, Bool.not_eq_true'] at h
      cases hobject : isOperatorObject (.obj operators) with
      | true =>
          rw [hobject] at h
          exact .operations hobject (operations_of_check operators (h.resolve_left nofun))
      | false => exact .value hobject
  | .null | .bool _ | .num _ | .str _ | .arr _ => exact .value rfl
termination_by structural condition

theorem operations_of_check (operators : List (String × Json))
    (h : operatorsWellFormed operators = true) :
    ∀ operator ∈ operators, IsOperation false operator.1 operator.2 := by
  match operators with
  | [] => exact fun _ hoperator => absurd hoperator List.not_mem_nil
  | (name, argument) :: rest =>
      rw [operatorsWellFormed, Bool.and_eq_true] at h
      obtain ⟨hfirst, hrest⟩ := h
      refine List.forall_mem_cons.mpr ⟨?_, operations_of_check rest hrest⟩
      cases hname : Operator.ofName? name with
      | none => rw [hname] at hfirst; cases hfirst
      | some operator =>
          rw [hname] at hfirst
          cases operator with
          | not => exact .not hname (condition_of_check argument hfirst)
          | test test => exact .test hname hfirst
          | someItem =>
              cases hobject : isOperatorObject argument with
              | true =>
                  dsimp only at hfirst
                  rw [if_pos hobject] at hfirst
                  exact .itemCondition hname hobject (condition_of_check argument hfirst)
              | false =>
                  dsimp only at hfirst
                  rw [hobject, if_neg Bool.false_ne_true] at hfirst
                  refine .itemFilter hname (fun htrue => ?_) (isFilter_of_check argument hfirst)
                  rw [hobject] at htrue
                  cases htrue
termination_by structural operators

end

/-- A filter belongs to the smaller language if it passes the check. -/
theorem isFilter_iff : IsFilter false filter ↔ isWellFormed filter = true :=
  ⟨IsFilter.check, isFilter_of_check filter⟩

theorem holds_ok (filter : Json) (h : isWellFormed filter = true) (doc : Json) :
    ∃ b, holds filter doc = .ok b :=
  (isFilter_of_check filter h).holds_ok doc

/-! ## Verdicts and refusals -/

/-- A filter of the smaller language has a verdict on every document. One of the larger language
that fails does so because logical operators stand alone under `$elemMatch`, and the first of them
is refused. -/
theorem filters_decide (filter doc : Json) :
    (IsFilter false filter → ∃ b, holds filter doc = .ok b)
      ∧ (IsFilter true filter → ∀ cause, holds filter doc = .error cause →
          ∃ name, (Logical.ofName? name).isSome = true ∧ cause = .unknownOperator name) := by
  refine ⟨fun h => h.holds_ok doc, fun h cause hcause => ?_⟩
  rcases h.decided doc with ⟨b, hb⟩ | ⟨-, name, hname, hrefused⟩
  · rw [hcause] at hb
    cases hb
  · rw [hcause] at hrefused
    exact ⟨name, hname, Except.error.inj hrefused⟩

/-- A field that is to equal a value is a filter. -/
theorem isFilter_of_value {value : Json} (hpath : isOperator path = false)
    (hvalue : isOperatorObject value = false) : IsFilter lone (.single path value) :=
  .clauses (List.forall_mem_singleton.mpr (.field hpath (.value hvalue)))

/-- A choice between filters for the items of an array is a filter of the larger language. -/
theorem isFilter_choice_of_items (hpath : isOperator path = false) (hterms : terms ≠ [])
    (h : ∀ term ∈ terms, IsFilter true term) :
    IsFilter true (.single path (.single "$elemMatch" (.single "$or" (.arr terms)))) := by
  have hor : Logical.ofName? "$or" = some .or := rfl
  have hchoice : IsFilter true (.single "$or" (.arr terms)) :=
    .clauses (List.forall_mem_singleton.mpr (.logical hor hterms h))
  have hitem : IsOperation true "$elemMatch" (.single "$or" (.arr terms)) :=
    .itemFilter rfl (fun _ => rfl) hchoice
  have hname : isOperator "$elemMatch" = true := by decide
  exact .clauses (List.forall_mem_singleton.mpr
    (.field hpath (.operations (isOperatorObject_single hname _)
      (List.forall_mem_singleton.mpr hitem))))

/-- The filter that an item of `xs` passes if its `a` is one, with the choice written out. -/
def itemChoice : Json :=
  .single "xs" (.single "$elemMatch" (.single "$or" (.arr [.single "a" (.int 1)])))

theorem isFilter_itemChoice : IsFilter true itemChoice :=
  isFilter_choice_of_items (by decide) (List.cons_ne_nil _ _)
    (List.forall_mem_singleton.mpr (isFilter_of_value (by decide) rfl))

/-- Items that are tested by a filter and by operators, and items that are tested by a filter of
logical operators alone. -/
theorem filters_decide_of_items :
    let doc : Json := .obj [("xs", .arr [.single "a" (.int 1), .int 3])]
    let decided : Json := .single "$nor" (.arr [
      .single "xs" (.single "$elemMatch" (.single "a" (.single "$not" (.single "$gt" (.int 0))))),
      .single "xs" (.single "$elemMatch" (.obj [("$gt", .int 5), ("$in", .arr [])]))])
    IsFilter false decided ∧ (∃ b, holds decided doc = .ok b)
      ∧ IsFilter true itemChoice ∧ holds itemChoice doc = .error (.unknownOperator "$or")
      ∧ ∃ name, (Logical.ofName? name).isSome = true
        ∧ EvalError.unknownOperator "$or" = .unknownOperator name := by
  intro doc decided
  have hdecided : IsFilter false decided := isFilter_iff.mpr (by decide)
  have hrefused : holds itemChoice doc = .error (.unknownOperator "$or") := rfl
  exact ⟨hdecided, (filters_decide decided doc).1 hdecided, isFilter_itemChoice, hrefused,
    (filters_decide itemChoice doc).2 isFilter_itemChoice _ hrefused⟩

/-- An item of the array has what is asked for, and there is no verdict. -/
theorem choice_of_items_has_no_verdict :
    let doc : Json := .single "xs" (.arr [.single "a" (.int 1)])
    IsFilter true itemChoice ∧ ¬ ∃ b, holds itemChoice doc = .ok b := by
  intro doc
  have hrefused : holds itemChoice doc = .error (.unknownOperator "$or") := rfl
  refine ⟨isFilter_itemChoice, ?_⟩
  rintro ⟨b, hb⟩
  rw [hrefused] at hb
  cases hb

end RunTable.Filter
