import RunTable.Proofs.Relevance

/-!
# What a filter refers to

The fields of a filter are gathered by one recursion and asked for by another. A filter may bury
them under `$and`, `$not` or lists, and may hold objects that look like conditions and are only
values to be equal. Where the two recursions part, a projection would take away what the filter
looks at.

They do not part: the gathered fields decide the filter, and each of them is a key that stands
somewhere in the filter and is no operator.
-/

namespace RunTable

/-- Whether an object in a value, at any depth, has a member of some name. -/
inductive Json.HasKey (key : String) : Json → Prop
  | name {members : List (String × Json)} (h : key ∈ Table.names members) :
      HasKey key (.obj members)
  | member {members : List (String × Json)} {entry : String × Json} (hentry : entry ∈ members)
      (h : HasKey key entry.2) : HasKey key (.obj members)
  | item {items : List Json} {value : Json} (hvalue : value ∈ items) (h : HasKey key value) :
      HasKey key (.arr items)

namespace Filter

open Document

variable {field : String}

/-- Whether a name is a key of a node and no operator. -/
def IsFieldOf (field : String) (node : Json) : Prop :=
  node.HasKey field ∧ isOperator field = false

theorem IsFieldOf.item {items : List Json} {value : Json} (hvalue : value ∈ items)
    (h : IsFieldOf field value) : IsFieldOf field (.arr items) :=
  ⟨.item hvalue h.1, h.2⟩

theorem IsFieldOf.member {members : List (String × Json)} {entry : String × Json}
    (hentry : entry ∈ members) (h : IsFieldOf field entry.2) : IsFieldOf field (.obj members) :=
  ⟨.member hentry h.1, h.2⟩

/-- Members behind others are members. -/
theorem IsFieldOf.tail {entry : String × Json} {members : List (String × Json)}
    (h : IsFieldOf field (.obj members)) : IsFieldOf field (.obj (entry :: members)) := by
  refine ⟨?_, h.2⟩
  cases h.1 with
  | name hname => exact .name (List.mem_cons_of_mem _ hname)
  | member hentry hkey => exact .member (List.mem_cons_of_mem _ hentry) hkey

mutual

/-- What is gathered from a node are keys of it that are no operators. -/
theorem isFieldOf_of_mem_listFields (node : Json) (h : field ∈ listFields node) :
    IsFieldOf field node := by
  match node with
  | .arr items =>
      obtain ⟨item, hitem, hfield⟩ := exists_of_mem_listItems items h
      exact hfield.item hitem
  | .obj members => exact isFieldOf_of_mem_listMembers members h
  | .null | .bool _ | .num _ | .str _ => cases h
termination_by structural node

theorem exists_of_mem_listItems (items : List Json) (h : field ∈ listItems items) :
    ∃ item ∈ items, IsFieldOf field item := by
  match items with
  | [] => cases h
  | item :: rest =>
      rcases List.mem_append.mp h with hitem | hrest
      · exact ⟨item, List.mem_cons_self, isFieldOf_of_mem_listFields item hitem⟩
      · obtain ⟨other, hother, hfield⟩ := exists_of_mem_listItems rest hrest
        exact ⟨other, List.mem_cons_of_mem _ hother, hfield⟩
termination_by structural items

theorem isFieldOf_of_mem_listMembers (members : List (String × Json))
    (h : field ∈ listMembers members) : IsFieldOf field (.obj members) := by
  match members with
  | [] => cases h
  | (key, node) :: rest =>
      rw [listMembers.eq_def] at h
      rcases List.mem_append.mp h with hfirst | hrest
      · split at hfirst
        -- under an operator, the fields of its argument
        · exact (isFieldOf_of_mem_listFields node hfirst).member List.mem_cons_self
        · next hkey =>
            rcases List.mem_cons.mp hfirst with rfl | hlist
            · exact ⟨.name List.mem_cons_self, Bool.eq_false_iff.mpr hkey⟩
            -- under a field, those of a list only
            · match node with
              | .arr items =>
                  obtain ⟨item, hitem, hfield⟩ := exists_of_mem_listItems items hlist
                  exact (hfield.item hitem).member List.mem_cons_self
              | .null | .bool _ | .num _ | .str _ | .obj _ => cases hlist
      · exact (isFieldOf_of_mem_listMembers rest hrest).tail
termination_by structural members

end

theorem isFieldOf_of_referenced {filter : Json} (h : field ∈ referencedFields filter) :
    IsFieldOf field filter := by
  rw [referencedFields] at h
  split at h
  · exact isFieldOf_of_mem_listFields filter (NameSet.mem_ofList.mp h)
  · cases h

/-- The fields of a filter are sound and no operators. Documents that read the same and offer the
same values at each of them get the same verdict, or the same error; and each of them is a key that
occurs in the filter and does not begin with `$`. -/
theorem referencedFields_decide (filter : Json) :
    (∀ doc other, (∀ field ∈ referencedFields filter,
        get? field doc = get? field other ∧ candidates field doc = candidates field other) →
      holds filter doc = holds filter other)
    ∧ ∀ field ∈ referencedFields filter,
      filter.HasKey field ∧ field.toList.head? ≠ some '$' := by
  refine ⟨fun doc other hsame => holds_congr_of_referenced filter hsame, fun field hfield => ?_⟩
  obtain ⟨hkey, hoperator⟩ := isFieldOf_of_referenced hfield
  exact ⟨hkey, by simpa [isOperator] using hoperator⟩

/-- Two documents that differ in a member which the filter does not look at and in the order of the
others, and a filter with a field under an operator and another one whose items are tested. -/
theorem referencedFields_decide_of_two :
    let filter : Json := .obj [("$nor", .arr [.single "status" (.str "FAILED")]),
      ("tags", .single "$elemMatch" (.single "$ne" (.str "old")))]
    let doc : Json := .obj [("status", .str "RUNNING"), ("tags", .strings ["new"])]
    let other : Json :=
      .obj [("notes", .null), ("tags", .strings ["new"]), ("status", .str "RUNNING")]
    holds filter doc = .ok true ∧ holds filter other = .ok true ∧ filter.HasKey "status" := by
  intro filter doc other
  have hnames : (referencedFields filter).names = ["status", "tags"] := by decide
  obtain ⟨hsound, hkeys⟩ := referencedFields_decide filter
  have hdoc : holds filter doc = .ok true := rfl
  have hsame : holds filter doc = holds filter other := by
    refine hsound doc other fun field hfield => ?_
    replace hfield : field ∈ ["status", "tags"] := hnames ▸ hfield
    rcases List.mem_cons.mp hfield with rfl | hfield
    · exact ⟨rfl, rfl⟩
    · rw [List.mem_singleton.mp hfield]
      exact ⟨rfl, rfl⟩
  have hstatus : "status" ∈ referencedFields filter := by decide
  exact ⟨hdoc, hsame ▸ hdoc, (hkeys "status" hstatus).1⟩

end Filter

end RunTable
