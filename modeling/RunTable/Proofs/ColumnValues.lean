import RunTable.Proofs.DistinctValues
import RunTable.Proofs.FilterSpellings
import RunTable.Proofs.TestedValues

/-!
# Distinct values in order

The store lists the distinct values of a field by gathering them first and sorting them afterwards.
Two notions of sameness are at work there. A value is passed over if it equals one that was
gathered, and objects are equal whatever the order of their members; but the sort compares members
side by side, and might take values for level that it has no reason to keep apart. That it never
does is due to the coarser of the two notions being the one that gathers: level values are equal, so
gathered ones are not level, and in order they ascend strictly.

What is listed can also be asked for. A value was read at its field, or as an item of the array
there, and both are among the values that a filter tests at the field.
-/

namespace RunTable

open Outcome

/-- Values in order, none of which stands above the next. -/
theorem Json.pairwise_le_mergeSort (values : List Json) :
    (values.mergeSort fun a b => a.cmp b != .gt).Pairwise fun a b => a.cmp b ≠ .gt := by
  have htrans : ∀ a b c : Json, (a.cmp b != .gt) = true → (b.cmp c != .gt) = true →
      (a.cmp c != .gt) = true := by
    intro a b c hab hbc
    rw [bne_iff_ne, ne_eq, Ordering.ne_gt_iff_isLE] at hab hbc ⊢
    exact Std.TransCmp.isLE_trans hab hbc
  have htotal : ∀ a b : Json, (a.cmp b != .gt || b.cmp a != .gt) = true := by
    intro a b
    rw [cmp_swap b a]
    cases a.cmp b <;> rfl
  exact (List.pairwise_mergeSort htrans htotal values).imp bne_iff_ne.mp

namespace Store

variable {field collection : String} {filter : Option Json} {store : Store} {doc value : Json}
  {values : List Json}

/-- Whether a value is one that a document has at a field: it is read there and is no array, or it
is an item of the array that is read there. -/
def HasAt (field : String) (doc value : Json) : Prop :=
  (Document.get? field doc = some value ∧ ∀ items, value ≠ .arr items)
    ∨ ∃ items, Document.get? field doc = some (.arr items) ∧ value ∈ items

theorem mem_fieldValues : value ∈ fieldValues field doc ↔ HasAt field doc value := by
  rw [fieldValues, HasAt]
  cases Document.get? field doc with
  | none => simp
  | some read => cases read <;> simp +contextual [eq_comm]

theorem HasAt.namesApart (h : HasAt field doc value) (hdoc : doc.namesApart = true) :
    value.namesApart = true := by
  rcases h with ⟨hread, -⟩ | ⟨items, hread, hmem⟩
  · exact Document.namesApart_getAt? hdoc hread
  · exact Json.namesApart_arr.mp (Document.namesApart_getAt? hdoc hread) value hmem

theorem HasAt.mem_candidates (h : HasAt field doc value) :
    value ∈ Document.candidates field doc := by
  rcases h with ⟨hread, -⟩ | ⟨items, hread, hmem⟩
  · exact Document.mem_candidatesAt hread
  · exact Document.leaves_subset_candidatesAt hread (List.mem_append_left _ hmem)

/-- What a document has at a field can be asked for. -/
theorem HasAt.holds_equal (h : HasAt field doc value) (hdoc : doc.namesApart = true)
    (hfield : Filter.isOperator field = false) :
    Filter.holds (.single field (.single "$eq" value)) doc = .ok true := by
  have hfound : Filter.equalsAny (Document.candidates field doc) value = true := by
    have hself : value.equal value = true := Json.equal_self (h.namesApart hdoc)
    rw [Filter.equalsAny, Bool.or_eq_true]
    exact .inr (List.any_eq_true.mpr ⟨value, h.mem_candidates, hself⟩)
  rw [Filter.holds_equal hfield, hfound]

/-- The values that are listed are in order. -/
theorem pairwise_le_distinct (h : store.distinct collection field filter = .ok values) :
    values.Pairwise fun a b => a.cmp b ≠ .gt := by
  obtain ⟨passing, -, hret⟩ := bind_eq_ok.mp h
  cases hret
  exact Json.pairwise_le_mergeSort _

/-- Whether values are those that some documents have at a field, each once and in order: they
ascend strictly, no two of them are equal, each of them is had by a document that passes the filter
and is found there by its field, and each value that a document that passes has equals one of
them. -/
structure Lists (docs : List Json) (field : String) (filter : Option Json) (values : List Json) :
    Prop where
  ascending : values.Pairwise fun a b => a.cmp b = .lt
  apart : values.Pairwise fun a b => a.equal b = false ∧ b.equal a = false
  sound : ∀ value ∈ values, ∃ doc ∈ docs, verdict filter doc = .ok true ∧ HasAt field doc value
    ∧ Filter.holds (.single field (.single "$eq" value)) doc = .ok true
  complete : ∀ doc ∈ docs, verdict filter doc = .ok true → ∀ value, HasAt field doc value →
    ∃ listed ∈ values, value.equal listed = true

/-- Values that were gathered such that none equals an earlier one are unequal both ways, in
whatever order they are listed. -/
theorem AreValues.pairwise_apart {rows : List Json} (h : AreValues field rows values)
    (hapart : ∀ value ∈ values, value.namesApart = true) :
    values.Pairwise fun a b => a.equal b = false ∧ b.equal a = false := by
  obtain ⟨gathered, hperm, hgathered⟩ := h.apart
  have hboth : gathered.Pairwise fun a b => a.equal b = false ∧ b.equal a = false := by
    refine hgathered.imp_of_mem fun {a b} ha hb hab => ⟨hab, ?_⟩
    have ha : a.namesApart = true := hapart a (hperm.mem_iff.mp ha)
    have hb : b.namesApart = true := hapart b (hperm.mem_iff.mp hb)
    exact Bool.eq_false_iff.mpr fun hba => by rw [Json.equal_symm hb ha hba] at hab; cases hab
  exact (hperm.pairwise_iff fun h => h.symm).mp hboth

/-- Where it succeeds, the store lists the distinct values of a field. -/
theorem distinct_lists (hdocs : ∀ doc ∈ store.documents collection, doc.namesApart = true)
    (hfield : Filter.isOperator field = false)
    (h : store.distinct collection field filter = .ok values) :
    Lists (store.documents collection) field filter values := by
  obtain ⟨passes, hpasses, hvalues⟩ := areValues_of_distinct h
  have hsound : ∀ value ∈ values, ∃ doc ∈ store.documents collection,
      verdict filter doc = .ok true ∧ HasAt field doc value := by
    intro value hvalue
    obtain ⟨doc, hdoc, hmem⟩ := hvalues.sound value hvalue
    obtain ⟨hdoc, hpass⟩ := List.mem_filter.mp hdoc
    exact ⟨doc, hdoc, hpass ▸ hpasses doc hdoc, mem_fieldValues.mp hmem⟩
  have hnames : ∀ value ∈ values, value.namesApart = true := by
    intro value hvalue
    obtain ⟨doc, hdoc, -, hhas⟩ := hsound value hvalue
    exact hhas.namesApart (hdocs doc hdoc)
  have hapart := hvalues.pairwise_apart hnames
  refine ⟨?_, hapart, fun value hvalue => ?_, fun doc hdoc hpass value hhas => ?_⟩
  -- in order and not level, since level values would be equal
  · refine ((pairwise_le_distinct h).and hapart).imp_of_mem fun {a b} ha _ hab => ?_
    cases hcmp : a.cmp b with
    | lt => rfl
    | eq =>
        have hequal : a.equal b = true := Json.equal_of_cmp_eq (hnames a ha) hcmp
        rw [hab.2.1] at hequal
        cases hequal
    | gt => exact absurd hcmp hab.1
  · obtain ⟨doc, hdoc, hpass, hhas⟩ := hsound value hvalue
    exact ⟨doc, hdoc, hpass, hhas, hhas.holds_equal (hdocs doc hdoc) hfield⟩
  · have hkeeps : passes doc = true := Except.ok.inj ((hpasses doc hdoc).symm.trans hpass)
    obtain ⟨listed, hlisted, hequal⟩ := hvalues.complete doc (List.mem_filter.mpr ⟨hdoc, hkeeps⟩)
      value (mem_fieldValues.mpr hhas)
    have hvalue : value.namesApart = true := hhas.namesApart (hdocs doc hdoc)
    refine ⟨listed, hlisted, ?_⟩
    rcases hequal with rfl | hequal
    · exact Json.equal_self hvalue
    · exact Json.equal_symm (hnames listed hlisted) hvalue hequal

/-- Equal values in several documents, some of them items of an array, and one that is filtered
out. -/
theorem distinct_lists_of_four :
    let doc := fun (id : Int) (value : Json) => Json.obj [("_id", .int id), ("tag", value)]
    let store : Store := { collections := [("runs", [doc 1 (.arr [.str "b", .null]),
      doc 2 (.str "a"), doc 3 (.arr [.str "b", .str "a"]), doc 4 (.str "c")])] }
    let filter : Json := .single "tag" (.single "$ne" (.str "c"))
    let values : List Json := [.null, .str "a", .str "b"]
    (∀ doc ∈ store.documents "runs", doc.namesApart = true) ∧ Filter.isOperator "tag" = false
      ∧ store.distinct "runs" "tag" (some filter) = .ok values
      ∧ Lists (store.documents "runs") "tag" (some filter) values := by
  intro doc store filter values
  have hnames : ∀ doc ∈ store.documents "runs", doc.namesApart = true := by decide
  have hfield : Filter.isOperator "tag" = false := by decide
  have hgathered : store.distinct "runs" "tag" (some filter) = .ok
      ([.str "b", .null, .str "a"].mergeSort fun a b : Json => a.cmp b != .gt) := rfl
  have hbn : ((Json.str "b").cmp .null != .gt) = false := by decide
  have hba : ((Json.str "b").cmp (.str "a") != .gt) = false := by decide
  have hna : (Json.null.cmp (.str "a") != .gt) = true := by decide
  have hvalues : store.distinct "runs" "tag" (some filter) = .ok values := by
    rw [hgathered]
    simp [List.mergeSort, List.MergeSort.Internal.splitInTwo, hbn, hba, hna, values]
  exact ⟨hnames, hfield, hvalues, distinct_lists hnames hfield hvalues⟩

end Store

end RunTable
