import RunTable.Filter.Match
import RunTable.Proofs.Frame

/-!
# A filter looks at its fields and at nothing else

Projection plans rest on one observation: two documents that are the same at every field which
occurs in a filter get the same verdict from it, and the same error if it has none. What the
documents hold elsewhere is never asked for.

The proof follows the evaluator. The only step with anything in it is a field: all its operators
take their values from the field's candidates or from the value read there, and the items that
`$elemMatch` descends into are then the same documents on both sides. Every other step splits the
fields of a node into those of its parts.
-/

namespace RunTable.Filter

open Document

variable {doc other : Json} {path : String}

/-! ## The fields of a clause -/

theorem mem_listMembers_tail {field : String} {clause : String × Json}
    {rest : List (String × Json)} (h : field ∈ listMembers rest) :
    field ∈ listMembers (clause :: rest) := by
  rw [listMembers.eq_def]
  exact List.mem_append_right _ h

theorem mem_listMembers_operator {field key : String} {condition : Json}
    {rest : List (String × Json)} (hkey : isOperator key = true)
    (h : field ∈ listFields condition) : field ∈ listMembers ((key, condition) :: rest) := by
  rw [listMembers.eq_def]
  simp only [hkey, if_true]
  exact List.mem_append_left _ h

theorem mem_listMembers_field {key : String} {condition : Json} {rest : List (String × Json)}
    (hkey : ¬ isOperator key = true) : key ∈ listMembers ((key, condition) :: rest) := by
  rw [listMembers.eq_def]
  simp only [hkey, Bool.false_eq_true, if_false]
  exact List.mem_append_left _ List.mem_cons_self

/-! ## Conditions on one field -/

theorem candidates_congr (h : SameAt (Path.segments path) doc other) :
    candidates path doc = candidates path other := h.2

theorem get?_congr (h : SameAt (Path.segments path) doc other) :
    get? path doc = get? path other := h.1

theorem testHolds_congr (h : SameAt (Path.segments path) doc other) (test : Test)
    (argument : Json) : test.holds argument doc path = test.holds argument other path := by
  unfold Test.holds
  rw [candidates_congr h, get?_congr h]

mutual

/-- A condition on one field is decided by what the document holds there. -/
theorem fieldHolds_congr (condition : Json) (h : SameAt (Path.segments path) doc other) :
    fieldHolds condition doc path = fieldHolds condition other path := by
  match condition with
  | .obj operators =>
      rw [fieldHolds, fieldHolds, candidates_congr h, operatorsHold_congr operators h]
  | .null | .bool _ | .num _ | .str _ | .arr _ =>
      rw [fieldHolds, fieldHolds, candidates_congr h] <;> simp
termination_by structural condition

theorem operatorsHold_congr (operators : List (String × Json))
    (h : SameAt (Path.segments path) doc other) :
    operatorsHold operators doc path = operatorsHold operators other path := by
  match operators with
  | [] => rfl
  | (name, argument) :: rest =>
      rw [operatorsHold, operatorsHold, fieldHolds_congr argument h,
        operatorsHold_congr rest h, get?_congr h]
      simp only [testHolds_congr h]
termination_by structural operators

end

/-! ## Whole filters -/

mutual

/-- Documents that are the same at each field of a filter get the same verdict. -/
theorem holds_congr (filter : Json)
    (h : ∀ field ∈ listFields filter, SameAt (Path.segments field) doc other) :
    holds filter doc = holds filter other := by
  match filter with
  | .obj clauses =>
      rw [holds, holds]
      exact clausesHold_congr clauses h
  | .null | .bool _ | .num _ | .str _ | .arr _ => rfl
termination_by structural filter

theorem clausesHold_congr (clauses : List (String × Json))
    (h : ∀ field ∈ listMembers clauses, SameAt (Path.segments field) doc other) :
    clausesHold clauses doc = clausesHold clauses other := by
  match clauses with
  | [] => rfl
  | (key, condition) :: rest =>
      have hrest : clausesHold rest doc = clausesHold rest other :=
        clausesHold_congr rest fun field hfield => h field (mem_listMembers_tail hfield)
      rw [clausesHold.eq_def, clausesHold.eq_def]
      simp only [hrest]
      by_cases hkey : isOperator key = true
      -- a logical operator is decided by its terms, and by itself where it has none
      · simp only [hkey, if_true]
        match condition with
        | .arr (term :: terms) =>
            have hterms : ∀ field ∈ listItems (term :: terms),
                SameAt (Path.segments field) doc other := fun field hfield =>
              h field (mem_listMembers_operator hkey hfield)
            cases Logical.ofName? key with
            | none => rfl
            | some logical =>
                cases logical with
                | and => simp only [allHold_congr (term :: terms) hterms]
                | or => simp only [anyHolds_congr (term :: terms) hterms]
                | nor => simp only [anyHolds_congr (term :: terms) hterms]
        | .arr [] | .null | .bool _ | .num _ | .str _ | .obj _ =>
            cases Logical.ofName? key with
            | none => rfl
            | some logical => cases logical <;> rfl
      · have hfield : SameAt (Path.segments key) doc other := h key (mem_listMembers_field hkey)
        simp only [hkey, Bool.false_eq_true, if_false, fieldHolds_congr condition hfield]
termination_by structural clauses

theorem allHold_congr (terms : List Json)
    (h : ∀ field ∈ listItems terms, SameAt (Path.segments field) doc other) :
    allHold terms doc = allHold terms other := by
  match terms with
  | [] => rfl
  | term :: rest =>
      rw [allHold, allHold,
        holds_congr term fun field hfield => h field (List.mem_append_left _ hfield),
        allHold_congr rest fun field hfield => h field (List.mem_append_right _ hfield)]
termination_by structural terms

theorem anyHolds_congr (terms : List Json)
    (h : ∀ field ∈ listItems terms, SameAt (Path.segments field) doc other) :
    anyHolds terms doc = anyHolds terms other := by
  match terms with
  | [] => rfl
  | term :: rest =>
      rw [anyHolds, anyHolds,
        holds_congr term fun field hfield => h field (List.mem_append_left _ hfield),
        anyHolds_congr rest fun field hfield => h field (List.mem_append_right _ hfield)]
termination_by structural terms

end

theorem holds_congr_of_referenced (filter : Json)
    (h : ∀ field ∈ (referencedFields filter).names, SameAt (Path.segments field) doc other) :
    holds filter doc = holds filter other := by
  cases hobj : filter.isObject with
  | true =>
      refine holds_congr filter fun field hfield => h field ?_
      rw [referencedFields, hobj, if_pos rfl, fields, NameSet.mem_names, NameSet.mem_ofList]
      exact hfield
  | false =>
      cases filter with
      | obj clauses => cases hobj
      | _ => rfl

end RunTable.Filter
