import RunTable.Proofs.KeptFields
import RunTable.Proofs.MetricCells

/-!
# Names stay apart

An object could list a name twice, and then removing the name would bring the second entry to light.
No reader of documents makes such an object, and no operation does: whatever is written, copied,
removed or computed of values whose names are apart has its names apart again.

For most operations this is a remark about their results. An expression is the exception, since
its value may come out of any part of the document, so there the proof follows the evaluator.
-/

namespace RunTable

open Outcome

namespace Json

mutual

/-- Whether no object in a value lists a name twice. -/
def namesApart : Json → Bool
  | arr items => namesApartItems items
  | obj members => decide (Table.names members).Nodup && namesApartMembers members
  | _ => true
termination_by structural value => value

def namesApartItems : List Json → Bool
  | [] => true
  | item :: items => namesApart item && namesApartItems items
termination_by structural items => items

def namesApartMembers : List (String × Json) → Bool
  | [] => true
  | (_, value) :: members => namesApart value && namesApartMembers members
termination_by structural members => members

end

variable {items : List Json} {members : List (String × Json)} {value left right : Json}

theorem namesApart_of_isScalar (h : value.isScalar = true) : value.namesApart = true := by
  cases value <;> first | rfl | cases h

@[simp] theorem namesApart_arr :
    (arr items).namesApart = true ↔ ∀ item ∈ items, item.namesApart = true := by
  rw [namesApart]
  induction items with
  | nil => simp [namesApartItems]
  | cons item items ih => simp [namesApartItems, ih]

@[simp] theorem namesApart_obj : (obj members).namesApart = true ↔
    (Table.names members).Nodup ∧ ∀ member ∈ members, member.2.namesApart = true := by
  have hmembers : namesApartMembers members = true
      ↔ ∀ member ∈ members, member.2.namesApart = true := by
    induction members with
    | nil => simp [namesApartMembers]
    | cons member members ih => rw [namesApartMembers, Bool.and_eq_true, ih, List.forall_mem_cons]
  rw [namesApart, Bool.and_eq_true, decide_eq_true_eq, hmembers]

theorem namesApart_getD {found : Option Json} (h : ∀ value ∈ found, value.namesApart = true) :
    (found.getD null).namesApart = true := by
  cases found with
  | none => rfl
  | some value => exact h value rfl

theorem nodup_names_of_namesApart (h : value.namesApart = true) :
    (Table.names value.members).Nodup := by
  cases value with
  | obj members => exact (namesApart_obj.mp h).1
  | _ => exact List.nodup_nil

theorem namesApart_member? (h : value.namesApart = true) {name : String} {child : Json}
    (hchild : value.member? name = some child) : child.namesApart = true := by
  cases value with
  | obj members => exact (namesApart_obj.mp h).2 _ (Table.mem_of_lookup hchild)
  | _ => cases hchild

/-! ## Tables -/

theorem namesApart_ofList {entries : List (String × Json)}
    (h : ∀ entry ∈ entries, entry.2.namesApart = true) :
    (obj (Table.ofList entries)).namesApart = true :=
  have hempty : (Table.names ([] : List (String × Json))).Nodup := List.nodup_nil
  namesApart_obj.mpr ⟨Table.nodup_names_putAll hempty entries, fun entry hentry =>
    h entry ((Table.mem_putAll hentry).resolve_left List.not_mem_nil)⟩

theorem namesApart_put (h : (obj members).namesApart = true) (hvalue : value.namesApart = true)
    (name : String) : (obj (Table.put name value members)).namesApart = true := by
  obtain ⟨hnodup, hmembers⟩ := namesApart_obj.mp h
  refine namesApart_obj.mpr ⟨Table.nodup_names_put hnodup, fun entry hentry => ?_⟩
  rcases Table.mem_put hentry with rfl | hentry
  · exact hvalue
  · exact hmembers entry hentry

theorem namesApart_putAll {entries : List (String × Json)} (h : (obj members).namesApart = true)
    (hentries : ∀ entry ∈ entries, entry.2.namesApart = true) :
    (obj (Table.putAll members entries)).namesApart = true := by
  obtain ⟨hnodup, hmembers⟩ := namesApart_obj.mp h
  refine namesApart_obj.mpr ⟨Table.nodup_names_putAll hnodup entries, fun entry hentry => ?_⟩
  exact (Table.mem_putAll hentry).elim (hmembers entry) (hentries entry)

theorem namesApart_erase (h : (obj members).namesApart = true) (name : String) :
    (obj (Table.erase name members)).namesApart = true := by
  obtain ⟨hnodup, hmembers⟩ := namesApart_obj.mp h
  exact namesApart_obj.mpr ⟨Table.nodup_names_erase hnodup, fun entry hentry =>
    hmembers entry ((Table.mem_erase hnodup).mp hentry).1⟩

/-- The members of any value form an object whose names are apart if the value's are. -/
theorem namesApart_members (h : value.namesApart = true) :
    (obj value.members).namesApart = true := by
  cases value with
  | obj members => exact h
  | _ => rfl

end Json

/-! ## Documents -/

namespace Document

open Json

variable {doc value child : Json} {p : List String} {path : String}

theorem namesApart_item? {items : List Json} {segment : String}
    (h : ∀ item ∈ items, item.namesApart = true) (hitem : item? segment items = some value) :
    value.namesApart = true := by
  obtain ⟨index, -, hget⟩ := Option.bind_eq_some_iff.mp hitem
  exact h value (List.mem_of_getElem? hget)

theorem namesApart_getAt? (h : doc.namesApart = true) (hread : getAt? p doc = some value) :
    value.namesApart = true := by
  induction p generalizing doc with
  | nil =>
      cases hread
      exact h
  | cons s rest ih =>
      obtain ⟨child, hchild, hrest⟩ := Option.bind_eq_some_iff.mp hread
      refine ih ?_ hrest
      cases doc with
      | obj members => exact namesApart_member? h hchild
      | arr items => exact namesApart_item? (namesApart_arr.mp h) hchild
      | _ => cases hchild

theorem namesApart_getOrNull (h : doc.namesApart = true) (path : String) :
    (getOrNull path doc).namesApart = true :=
  namesApart_getD fun _ hvalue => namesApart_getAt? h hvalue

theorem namesApart_setAt (h : doc.namesApart = true) (hvalue : value.namesApart = true)
    (p : List String) : (setAt p value doc).namesApart = true := by
  induction p generalizing doc with
  | nil => exact hvalue
  | cons s rest ih =>
      rw [setAt_cons]
      refine namesApart_put (namesApart_members h) (ih ?_) s
      cases hchild : doc.member? s with
      | none => rfl
      | some child => exact namesApart_member? h hchild

theorem namesApart_setAll {writes : List (String × Json)} (h : doc.namesApart = true)
    (hwrites : ∀ write ∈ writes, write.2.namesApart = true) :
    (setAll writes doc).namesApart = true := by
  induction writes generalizing doc with
  | nil => exact h
  | cons write writes ih =>
      refine ih (namesApart_setAt h (hwrites write List.mem_cons_self) _) fun other hother => ?_
      exact hwrites other (List.mem_cons_of_mem _ hother)

/-- What a removal gives and leaves: a member and the others, or what was removed from a member and
the rest of it in its place. -/
theorem removeAt?_cons_eq_some {s : String} {rest : List String} {removed : Json × Json}
    (h : removeAt? (s :: rest) doc = some removed) :
    ∃ child, doc.member? s = some child
      ∧ ((rest = [] ∧ removed.1 = child ∧ removed.2 = .obj (Table.erase s doc.members))
        ∨ ∃ inner, removeAt? rest child = some inner ∧ removed.1 = inner.1
          ∧ removed.2 = .obj (Table.put s inner.2 doc.members)) := by
  cases rest with
  | nil =>
      obtain ⟨child, hchild, rfl⟩ := Option.map_eq_some_iff.mp h
      exact ⟨child, hchild, .inl ⟨rfl, rfl, rfl⟩⟩
  | cons t rest =>
      rw [removeAt?.eq_3 _ _ _ (by simp)] at h
      cases hchild : doc.member? s with
      | none =>
          rw [hchild] at h
          cases h
      | some child =>
          rw [hchild] at h
          obtain ⟨inner, hinner, rfl⟩ := Option.map_eq_some_iff.mp h
          exact ⟨child, rfl, .inr ⟨inner, hinner, rfl, rfl⟩⟩

theorem namesApart_removeAt? {removed : Json × Json} (h : doc.namesApart = true)
    (hremoved : removeAt? p doc = some removed) : removed.2.namesApart = true := by
  induction p generalizing doc removed with
  | nil => cases hremoved
  | cons s rest ih =>
      obtain ⟨child, hchild, ⟨-, -, heq⟩ | ⟨inner, hinner, -, heq⟩⟩ :=
        removeAt?_cons_eq_some hremoved
      · rw [heq]
        exact namesApart_erase (namesApart_members h) s
      · rw [heq]
        exact namesApart_put (namesApart_members h) (ih (namesApart_member? h hchild) hinner) s

theorem namesApart_remove (h : doc.namesApart = true) (path : String) :
    (remove path doc).namesApart = true := by
  rw [remove, remove?]
  cases hremoved : removeAt? (Path.segments path) doc with
  | none => exact h
  | some removed => exact namesApart_removeAt? h hremoved

end Document

namespace Projection

variable {paths : NameSet} {doc : Json}

theorem namesApart_apply_keep (h : doc.namesApart = true) :
    ((keep paths).apply doc).namesApart = true := by
  have hempty : (Json.obj []).namesApart = true := rfl
  rw [apply_keep]
  refine Document.namesApart_setAll hempty fun entry hentry => ?_
  exact Document.namesApart_getAt? h (mem_copies.mp hentry).2

theorem namesApart_apply_drop (h : doc.namesApart = true) :
    ((drop paths).apply doc).namesApart = true := by
  have hfold : ∀ (removed : List String) (doc : Json), doc.namesApart = true →
      (removed.foldl (fun rest path => Document.remove path rest) doc).namesApart = true := by
    intro removed
    induction removed with
    | nil => exact fun _ hdoc => hdoc
    | cons path removed ih => exact fun doc hdoc => ih _ (Document.namesApart_remove hdoc path)
  exact hfold _ doc h

end Projection

/-! ## Expressions

What an operator gives is computed anew, taken out of its argument, or a table of the entries that
its argument lists. -/

namespace Json

variable {left right value : Json} {items values : List Json}

theorem isScalar_ofDouble? (x : Option Double) : (ofDouble? x).isScalar = true := by
  cases x <;> rfl

theorem isScalar_subtract (h : left.subtract right = .ok value) : value.isScalar = true := by
  rw [subtract] at h
  split at h
  · cases h
    rfl
  · split at h
    · cases h
      rfl
    · cases h
      exact isScalar_ofDouble? _
    · split at h <;> cases h <;> rfl

/-- The best of some values is one of them, or null. -/
theorem best_mem (better : Json → Json → Bool) (values : List Json) :
    best better values = null ∨ best better values ∈ values := by
  induction values using List.reverseRecOn with
  | nil => exact .inl rfl
  | append_singleton values value ih =>
      by_cases hvalues : values = []
      · subst hvalues
        exact .inr List.mem_cons_self
      · rw [best_append values value hvalues]
        split
        · exact .inr (List.mem_append_right _ List.mem_cons_self)
        · exact ih.imp id (List.mem_append_left _)

theorem isNumber_of_mem_numbers (h : value ∈ numbers left) : value.isNumber = true := by
  cases left with
  | arr items => exact (List.mem_filter.mp h).2
  | num n =>
      rw [List.mem_singleton.mp h]
      rfl
  | _ => cases h

theorem namesApart_best (better : Json → Json → Bool) (value : Json) :
    (best better (numbers value)).namesApart = true := by
  rcases best_mem better (numbers value) with hnull | hmem
  · rw [hnull]
    rfl
  · have hnumber := isNumber_of_mem_numbers hmem
    cases hbest : best better (numbers value) with
    | num n => rfl
    | _ =>
        rw [hbest] at hnumber
        cases hnumber

theorem mem_of_elementAt? {index : Int} (h : elementAt? items index = some value) :
    value ∈ items := by
  rw [elementAt?] at h
  split at h
  · exact List.mem_of_getElem? h
  · split at h
    · exact List.mem_of_getElem? h
    · cases h

theorem mem_of_mem_slice {count : Int} (h : value ∈ slice items count) : value ∈ items := by
  rw [slice] at h
  split at h
  · exact List.mem_of_mem_take h
  · exact List.mem_of_mem_drop h

theorem namesApart_entry? {entry : String × Json} (h : value.namesApart = true)
    (hentry : entry? value = .ok entry) : entry.2.namesApart = true := by
  unfold entry? at hentry
  split at hentry
  · next members =>
      split at hentry
      · cases hentry
        exact namesApart_getD fun child hchild => namesApart_member? h hchild
      · cases hentry
  · cases hentry
    exact namesApart_arr.mp h _ (by simp)
  · cases hentry
  · cases hentry

end Json

open Json

theorem Unary.namesApart_apply {operator : Unary} {argument value : Json}
    (h : argument.namesApart = true) (hvalue : operator.apply argument = .ok value) :
    value.namesApart = true := by
  cases operator with
  | size =>
      cases argument <;> cases hvalue
      rfl
  | elementAt index =>
      cases argument with
      | null =>
          cases hvalue
          rfl
      | arr items =>
          cases hvalue
          exact namesApart_getD fun item hitem => namesApart_arr.mp h item (mem_of_elementAt? hitem)
      | _ => cases hvalue
  | slice count =>
      cases argument with
      | null =>
          cases hvalue
          rfl
      | arr items =>
          cases hvalue
          exact namesApart_arr.mpr fun item hitem =>
            namesApart_arr.mp h item (mem_of_mem_slice hitem)
      | _ => cases hvalue
  | least =>
      cases hvalue
      exact namesApart_best _ _
  | greatest =>
      cases hvalue
      exact namesApart_best _ _
  | mean =>
      cases hvalue
      exact namesApart_of_isScalar (isScalar_ofDouble? _)
  | member name =>
      cases hvalue
      exact namesApart_getD fun child hchild => namesApart_member? h hchild
  | toObject =>
      cases argument with
      | null =>
          cases hvalue
          rfl
      | arr entries =>
          obtain ⟨table, htable, hret⟩ := bind_eq_ok.mp hvalue
          cases hret
          refine namesApart_ofList fun entry hentry => ?_
          obtain ⟨item, hitem, hof⟩ := mem_of_mapM htable hentry
          exact namesApart_entry? (namesApart_arr.mp h item hitem) hof
      | _ => cases hvalue
  | withMember name values =>
      cases argument with
      | arr items =>
          cases hvalue
          refine namesApart_arr.mpr fun item hitem => ?_
          exact namesApart_arr.mp h item (List.mem_filter.mp hitem).1
      | _ =>
          cases hvalue
          rfl

theorem Binary.isScalar_apply {operator : Binary} {left right value : Json}
    (h : operator.apply left right = .ok value) : value.isScalar = true := by
  cases operator with
  | subtract => exact isScalar_subtract h
  | equal =>
      cases h
      rfl
  | above =>
      cases h
      rfl

namespace Expr

mutual

/-- Whether the values that an expression states have their names apart. -/
def namesApart : Expr → Bool
  | literal value => value.namesApart
  | unary _ argument => argument.namesApart
  | binary _ left right => left.namesApart && right.namesApart
  | ifNull value fallback => value.namesApart && fallback.namesApart
  | cond test yes no => test.namesApart && yes.namesApart && no.namesApart
  | all terms => namesApartAll terms
  | merge parts => namesApartAll parts
  | object fields => namesApartFields fields
  | _ => true
termination_by structural expr => expr

def namesApartAll : List Expr → Bool
  | [] => true
  | expr :: exprs => expr.namesApart && namesApartAll exprs
termination_by structural exprs => exprs

def namesApartFields : List (String × Expr) → Bool
  | [] => true
  | (_, expr) :: fields => expr.namesApart && namesApartFields fields
termination_by structural fields => fields

end

variable {doc : Json}

mutual

/-- An expression whose own values have their names apart takes documents whose names are apart to
values whose names are. -/
theorem namesApart_eval (expr : Expr) (h : expr.namesApart = true) (hdoc : doc.namesApart = true)
    {value : Json} (heval : expr.eval doc = .ok value) : value.namesApart = true := by
  match expr with
  | field path =>
      cases heval
      exact Document.namesApart_getOrNull hdoc path
  | root =>
      cases heval
      exact hdoc
  | literal stated =>
      cases heval
      exact h
  | instant time =>
      cases heval
      rfl
  | unary operator argument =>
      obtain ⟨inner, hinner, hvalue⟩ := bind_eq_ok.mp heval
      exact Unary.namesApart_apply (namesApart_eval argument h hdoc hinner) hvalue
  | binary operator left right =>
      obtain ⟨l, -, hrest⟩ := bind_eq_ok.mp heval
      obtain ⟨r, -, hvalue⟩ := bind_eq_ok.mp hrest
      exact namesApart_of_isScalar (Binary.isScalar_apply hvalue)
  | ifNull first fallback =>
      obtain ⟨hfirst, hfallback⟩ := Bool.and_eq_true_iff.mp h
      obtain ⟨inner, hinner, hrest⟩ := bind_eq_ok.mp heval
      split at hrest
      · exact namesApart_eval fallback hfallback hdoc hrest
      · cases hrest
        exact namesApart_eval first hfirst hdoc hinner
  | cond test yes no =>
      obtain ⟨hboth, hno⟩ := Bool.and_eq_true_iff.mp h
      obtain ⟨-, hyes⟩ := Bool.and_eq_true_iff.mp hboth
      obtain ⟨inner, -, hrest⟩ := bind_eq_ok.mp heval
      split at hrest
      · exact namesApart_eval yes hyes hdoc hrest
      · exact namesApart_eval no hno hdoc hrest
  | all terms =>
      obtain ⟨holds, -, hret⟩ := bind_eq_ok.mp heval
      cases hret
      rfl
  | merge parts =>
      obtain ⟨members, hmembers, hret⟩ := bind_eq_ok.mp heval
      cases hret
      exact namesApart_evalMerge parts h hdoc rfl hmembers
  | object fields =>
      obtain ⟨members, hmembers, hret⟩ := bind_eq_ok.mp heval
      cases hret
      exact namesApart_ofList (namesApart_evalFields fields h hdoc hmembers)
termination_by structural expr

theorem namesApart_evalMerge (parts : List Expr) (h : namesApartAll parts = true)
    (hdoc : doc.namesApart = true) {before after : List (String × Json)}
    (hbefore : (Json.obj before).namesApart = true)
    (heval : evalMerge parts doc before = .ok after) : (Json.obj after).namesApart = true := by
  match parts with
  | [] =>
      cases heval
      exact hbefore
  | part :: parts =>
      obtain ⟨hpart, hparts⟩ := Bool.and_eq_true_iff.mp h
      obtain ⟨inner, hinner, hrest⟩ := bind_eq_ok.mp heval
      have hvalue := namesApart_eval part hpart hdoc hinner
      split at hrest
      · exact namesApart_evalMerge parts hparts hdoc hbefore hrest
      · next members =>
          have hmerged := namesApart_putAll hbefore (namesApart_obj.mp hvalue).2
          exact namesApart_evalMerge parts hparts hdoc hmerged hrest
      · cases hrest
termination_by structural parts

theorem namesApart_evalFields (fields : List (String × Expr)) (h : namesApartFields fields = true)
    (hdoc : doc.namesApart = true) {cells : List (String × Json)}
    (heval : evalFields fields doc = .ok cells) : ∀ cell ∈ cells, cell.2.namesApart = true := by
  match fields with
  | [] =>
      cases heval
      exact fun _ hcell => absurd hcell List.not_mem_nil
  | (name, expr) :: fields =>
      obtain ⟨hexpr, hfields⟩ := Bool.and_eq_true_iff.mp h
      obtain ⟨inner, hinner, hrest⟩ := bind_eq_ok.mp heval
      obtain ⟨rest, hevalFields, hret⟩ := bind_eq_ok.mp hrest
      cases hret
      refine List.forall_mem_cons.mpr ⟨namesApart_eval expr hexpr hdoc hinner, ?_⟩
      exact namesApart_evalFields fields hfields hdoc hevalFields
termination_by structural fields

end

end Expr

end RunTable
