import RunTable.Proofs.Groups
import RunTable.Proofs.Tables

/-!
# Every row goes into one group

Grouping is correct if the rows it was given can be laid out in groups, one for each key text, and
each row of the result tells of one of these groups and of nothing else. The layout is a partition:
put behind each other the groups hold the rows that came, no two groups share a text, and both the
rows in a group and the groups themselves keep the order in which they came.

What is evaluated for a row of the result is known from the cells of a group, so the result says
exactly what can fail: the key of any row, a first value at the first row of a group, and a gathered
value at any row. If none of these fails, grouping does not fail.
-/

namespace RunTable

open Outcome

variable {key : Expr} {fields : List (String × Accumulator)} {k : Json → Json}
  {rows group out : List Json} {texts : List String} {result other : Json}

/-- The rows of each key text, in the order of the texts' first rows. -/
def groupsOf (k : Json → Json) (rows : List Json) : List (List Json) :=
  (keyTexts k rows).map fun text => rowsOf k text rows

/-- How many rows come before the first one with some key text. -/
def firstPlace (k : Json → Json) (rows : List Json) (text : String) : Nat :=
  rows.findIdx fun row => (k row).text == text

/-- Whether lists of rows are the groups of some rows by the texts of their keys. -/
structure Partitions (k : Json → Json) (rows : List Json) (groups : List (List Json)) : Prop where
  /-- Each row is in one group and there once. -/
  perm : groups.flatten.Perm rows
  /-- A group lists its rows in the order in which they came. -/
  inOrder : ∀ group ∈ groups, group.Sublist rows
  /-- The rows of a group have one text. -/
  together : ∀ group ∈ groups, ∀ row ∈ group, ∀ other ∈ group, (k row).text = (k other).text
  /-- Groups stand in the order in which their texts came first, so no two have the same. -/
  apart : groups.Pairwise fun group later => ∀ row ∈ group, ∀ other ∈ later,
    firstPlace k rows (k row).text < firstPlace k rows (k other).text

/-- Whether a row is what grouping makes of a group: the key of its first row under `_id`, and
behind it under each name what the accumulator holds. -/
def Summarizes (fields : List (String × Accumulator)) (k : Json → Json) (group : List Json)
    (result : Json) : Prop :=
  ∃ first cells, group.head? = some first
    ∧ List.Forall₂ (fun field cell => field.2.Holds first group cell) fields cells
    ∧ result = .obj ((Field.id, k first) :: (fields.map (·.1)).zip cells)

/-! ## The partition -/

/-- The rows of some texts, gathered text by text, are the rows that have one of them. -/
theorem perm_rowsOf (hnodup : texts.Nodup) :
    (texts.flatMap fun text => rowsOf k text rows).Perm
      (rows.filter fun row => texts.contains (k row).text) := by
  induction texts with
  | nil => simp
  | cons text texts ih =>
      obtain ⟨hnot, hnodup⟩ := List.nodup_cons.mp hnodup
      have hsplit := List.filter_append_perm (fun row => (k row).text == text)
        (rows.filter fun row => (text :: texts).contains (k row).text)
      have hfirst : ((rows.filter fun row => (text :: texts).contains (k row).text).filter
          fun row => (k row).text == text) = rowsOf k text rows := by
        rw [List.filter_filter, rowsOf]
        refine List.filter_congr fun row _ => ?_
        by_cases htext : (k row).text = text <;> simp [htext]
      have hothers : ((rows.filter fun row => (text :: texts).contains (k row).text).filter
          fun row => !((k row).text == text))
          = rows.filter fun row => texts.contains (k row).text := by
        rw [List.filter_filter]
        refine List.filter_congr fun row _ => ?_
        by_cases htext : (k row).text = text <;> simp [htext, hnot]
      rw [hfirst, hothers] at hsplit
      rw [List.flatMap_cons]
      exact ((ih hnodup).append_left _).trans hsplit

theorem firstPlace_lt_length {text : String} :
    firstPlace k rows text < rows.length ↔ text ∈ keyTexts k rows := by
  rw [firstPlace, List.findIdx_lt_length, mem_keyTexts]
  simp

theorem firstPlace_append_of_mem {text : String} (h : text ∈ keyTexts k rows) (more : List Json) :
    firstPlace k (rows ++ more) text = firstPlace k rows text := by
  have hlt := firstPlace_lt_length.mpr h
  rw [firstPlace] at hlt ⊢
  rw [List.findIdx_append, if_pos hlt, firstPlace]

theorem le_firstPlace_append {text : String} (h : text ∉ keyTexts k rows) (more : List Json) :
    rows.length ≤ firstPlace k (rows ++ more) text := by
  have hle := mt firstPlace_lt_length.mp h
  rw [firstPlace] at hle ⊢
  rw [List.findIdx_append, if_neg hle]
  exact Nat.le_add_left _ _

/-- Key texts are listed in the order of their first rows. -/
theorem pairwise_keyTexts : (keyTexts k rows).Pairwise fun text later =>
    firstPlace k rows text < firstPlace k rows later := by
  induction rows using List.reverseRecOn with
  | nil => exact List.Pairwise.nil
  | append_singleton rows row ih =>
      have hknown : (keyTexts k rows).Pairwise fun text later =>
          firstPlace k (rows ++ [row]) text < firstPlace k (rows ++ [row]) later :=
        ih.imp_of_mem fun htext hlater hlt => by
          rwa [firstPlace_append_of_mem htext, firstPlace_append_of_mem hlater]
      by_cases hmem : (k row).text ∈ keyTexts k rows
      · rw [keyTexts_append_of_mem hmem]
        exact hknown
      · rw [keyTexts_append_of_not_mem hmem]
        refine List.pairwise_append.mpr ⟨hknown, List.pairwise_singleton _ _, ?_⟩
        intro text htext last hlast
        rw [List.mem_singleton.mp hlast, firstPlace_append_of_mem htext]
        exact Nat.lt_of_lt_of_le (firstPlace_lt_length.mpr htext) (le_firstPlace_append hmem [row])

theorem partitions_groupsOf (k : Json → Json) (rows : List Json) :
    Partitions k rows (groupsOf k rows) where
  perm := by
    have hall : (rows.filter fun row => (keyTexts k rows).contains (k row).text) = rows :=
      List.filter_eq_self.mpr fun row hrow =>
        List.contains_iff_mem.mpr (mem_keyTexts.mpr ⟨row, hrow, rfl⟩)
    have hperm : ((keyTexts k rows).flatMap fun text => rowsOf k text rows).Perm
        (rows.filter fun row => (keyTexts k rows).contains (k row).text) :=
      perm_rowsOf nodup_keyTexts
    rwa [hall] at hperm
  together := by
    intro group hgroup row hrow other hother
    obtain ⟨text, -, rfl⟩ := List.mem_map.mp hgroup
    exact (mem_rowsOf.mp hrow).2.trans (mem_rowsOf.mp hother).2.symm
  inOrder := by
    intro group hgroup
    obtain ⟨text, -, rfl⟩ := List.mem_map.mp hgroup
    exact List.filter_sublist
  apart := by
    refine List.pairwise_map.mpr (pairwise_keyTexts.imp fun hlt row hrow other hother => ?_)
    rwa [(mem_rowsOf.mp hrow).2, (mem_rowsOf.mp hother).2]

namespace Partitions

variable {groups : List (List Json)}

theorem mem_rows (h : Partitions k rows groups) (hgroup : group ∈ groups) {row : Json}
    (hrow : row ∈ group) : row ∈ rows := (h.inOrder group hgroup).subset hrow

theorem rowsOf_flatten_eq_nil {text : String}
    (h : ∀ group ∈ groups, ∀ row ∈ group, (k row).text ≠ text) :
    rowsOf k text groups.flatten = [] := by
  refine List.eq_nil_iff_forall_not_mem.mpr fun row hrow => ?_
  obtain ⟨hmem, htext⟩ := mem_rowsOf.mp hrow
  obtain ⟨group, hgroup, hrow⟩ := List.mem_flatten.mp hmem
  exact h group hgroup row hrow htext

/-- A group holds all rows of its text. -/
theorem eq_rowsOf (h : Partitions k rows groups) (hgroup : group ∈ groups) {row : Json}
    (hrow : row ∈ group) : group = rowsOf k (k row).text rows := by
  have hself : rowsOf k (k row).text group = group :=
    List.filter_eq_self.mpr fun r hr => by simpa using h.together group hgroup r hr row hrow
  have hsublist : (rowsOf k (k row).text group).Sublist (rowsOf k (k row).text rows) :=
    (h.inOrder group hgroup).filter _
  have hlength : (rowsOf k (k row).text groups.flatten).length
      = (rowsOf k (k row).text rows).length := (h.perm.filter _).length_eq
  rw [hself] at hsublist
  refine hsublist.eq_of_length ?_
  -- the other groups have no row of this text, so they add nothing to the rows that have it
  obtain ⟨before, after, rfl⟩ := List.append_of_mem hgroup
  obtain ⟨-, hapart, hbefore⟩ := List.pairwise_append.mp h.apart
  obtain ⟨hafter, -⟩ := List.pairwise_cons.mp hapart
  have hnone : rowsOf k (k row).text before.flatten = [] :=
    rowsOf_flatten_eq_nil fun other hother r hr => ne_of_apply_ne (firstPlace k rows)
      (Nat.ne_of_lt (hbefore other hother group List.mem_cons_self r hr row hrow))
  have hnone' : rowsOf k (k row).text after.flatten = [] :=
    rowsOf_flatten_eq_nil fun other hother r hr => ne_of_apply_ne (firstPlace k rows)
      (Nat.ne_of_gt (hafter other hother row hrow r hr))
  rw [List.flatten_append, List.flatten_cons, rowsOf_append, rowsOf_append, hself, hnone, hnone',
    List.nil_append, List.append_nil] at hlength
  exact hlength

theorem nodup (h : Partitions k rows groups) (hne : [] ∉ groups) : groups.Nodup := by
  refine h.apart.imp_of_mem fun {group later} hgroup _ hlt heq => ?_
  obtain ⟨row, hrow⟩ := List.exists_mem_of_ne_nil group fun hnil => hne (hnil ▸ hgroup)
  exact Nat.lt_irrefl _ (hlt row hrow row (heq ▸ hrow))

theorem mem_iff (h : Partitions k rows groups) (hne : [] ∉ groups) :
    group ∈ groups ↔ ∃ row ∈ rows, group = rowsOf k (k row).text rows := by
  constructor
  · intro hgroup
    obtain ⟨row, hrow⟩ := List.exists_mem_of_ne_nil group fun hnil => hne (hnil ▸ hgroup)
    exact ⟨row, h.mem_rows hgroup hrow, h.eq_rowsOf hgroup hrow⟩
  · rintro ⟨row, hrow, rfl⟩
    obtain ⟨group, hgroup, hmem⟩ := List.mem_flatten.mp (h.perm.mem_iff.mpr hrow)
    exact h.eq_rowsOf hgroup hmem ▸ hgroup

/-- Rows can be laid out in groups in one way. -/
theorem unique {groups' : List (List Json)} (h : Partitions k rows groups) (hne : [] ∉ groups)
    (h' : Partitions k rows groups') (hne' : [] ∉ groups') : groups = groups' := by
  have hperm : groups.Perm groups' :=
    (List.perm_ext_iff_of_nodup (h.nodup hne) (h'.nodup hne')).mpr fun group => by
      rw [h.mem_iff hne, h'.mem_iff hne']
  refine hperm.eq_of_pairwise (fun group later hgroup hlater hlt hlt' => ?_) h.apart h'.apart
  obtain ⟨row, hrow⟩ := List.exists_mem_of_ne_nil group fun hnil => hne (hnil ▸ hgroup)
  obtain ⟨other, hother⟩ := List.exists_mem_of_ne_nil later fun hnil => hne' (hnil ▸ hlater)
  exact absurd (hlt row hrow other hother) (Nat.lt_asymm (hlt' other hother row hrow))

end Partitions

/-! ## Groups and rows of the result -/

/-- Of a group with some rows there is one row that sums it up, if there is any. -/
theorem Summarizes.unique (h : Summarizes fields k group result)
    (h' : Summarizes fields k group other) : result = other := by
  obtain ⟨first, cells, hfirst, hcells, rfl⟩ := h
  obtain ⟨first', cells', hfirst', hcells', rfl⟩ := h'
  cases hfirst.symm.trans hfirst'
  rw [List.right_unique_forall₂' (Accumulator.rightUnique_holds first group) hcells hcells']

/-- While the names of the fields are apart, the row of a group sums it up. -/
theorem isGroup_iff_summarizes {text : String} (hnames : (Field.id :: fields.map (·.1)).Nodup) :
    IsGroup fields k rows text result ↔ Summarizes fields k (rowsOf k text rows) result := by
  refine exists_congr fun first => exists_congr fun cells => and_congr_right fun hfirst => ?_
  rw [groupCells_eq_ok hfirst]
  refine and_congr_right fun hcells => ?_
  rw [Table.ofList_eq_self]
  rwa [Table.names_cons, Table.names, List.map_fst_zip (by simp [hcells.length_eq])]

theorem exists_cells_of_summarizes (h : Summarizes fields k group result) :
    ∃ cells, groupCells fields group = .ok cells := by
  obtain ⟨first, cells, hfirst, hcells, -⟩ := h
  exact ⟨cells, (groupCells_eq_ok hfirst).mpr hcells⟩

theorem groupRows_eq_ok (hnames : (Field.id :: fields.map (·.1)).Nodup)
    (hk : ∀ row ∈ rows, key.eval row = .ok (k row)) :
    groupRows key fields rows = .ok out
      ↔ List.Forall₂ (Summarizes fields k) (groupsOf k rows) out := by
  have hsums : ∀ {result}, groupRows key fields rows = .ok result →
      List.Forall₂ (Summarizes fields k) (groupsOf k rows) result := fun hresult =>
    List.forall₂_map_left_iff.mpr <| (isGroup_groupRows hk hresult).imp fun _ _ =>
      (isGroup_iff_summarizes hnames).mp
  refine ⟨hsums, fun h => ?_⟩
  -- each group has its cells, so grouping gives something, and it can only give this
  obtain ⟨result, hresult⟩ := exists_groupRows hk fun text htext => by
    obtain ⟨row, -, hrow⟩ := exists_of_mem_right h.flip (List.mem_map_of_mem htext)
    exact exists_cells_of_summarizes hrow
  have hunique : Relator.RightUnique (Summarizes fields k) := fun _ _ _ => Summarizes.unique
  rw [hresult, List.right_unique_forall₂' hunique (hsums hresult) h]

/-- Every row has a key when rows are grouped. -/
theorem exists_keys_of_groupRows (h : groupRows key fields rows = .ok out) :
    ∃ k : Json → Json, ∀ row ∈ rows, key.eval row = .ok (k row) := by
  obtain ⟨buckets, hbuckets, -⟩ := bind_eq_ok.mp h
  have heval : ∀ row ∈ rows, ∃ value, key.eval row = .ok value := by
    -- a row that is added behind others was evaluated, and so were the others before it
    clear h
    induction rows using List.reverseRecOn generalizing buckets with
    | nil => exact fun row hrow => absurd hrow List.not_mem_nil
    | append_singleton rows row ih =>
        rw [List.foldlM_append] at hbuckets
        obtain ⟨before, hbefore, hrow⟩ := bind_eq_ok.mp hbuckets
        rw [List.foldlM_cons] at hrow
        obtain ⟨after, hstep, -⟩ := bind_eq_ok.mp hrow
        obtain ⟨value, hvalue, -⟩ := bind_eq_ok.mp hstep
        intro r hr
        rcases List.mem_append.mp hr with hr | hr
        · exact ih before hbefore r hr
        · rw [List.mem_singleton.mp hr]
          exact ⟨value, hvalue⟩
  choose! k hk using heval
  exact ⟨k, hk⟩

/-- The group stage partitions its rows, if the fields have names of their own. It succeeds exactly
if each row has a key, so that the rows can be laid out in groups by the texts of their keys, and
each group can be summed up; and then the rows of the result sum up the groups one after the
other. -/
theorem Stage.group_partitions (collections : Collections)
    (hnames : (Field.id :: fields.map (·.1)).Nodup) :
    Stage.apply collections (.group key fields) rows = .ok out
      ↔ ∃ (k : Json → Json) (groups : List (List Json)),
        (∀ row ∈ rows, key.eval row = .ok (k row))
          ∧ Partitions k rows groups
          ∧ List.Forall₂ (Summarizes fields k) groups out := by
  constructor
  · intro h
    obtain ⟨k, hk⟩ := exists_keys_of_groupRows h
    exact ⟨k, groupsOf k rows, hk, partitions_groupsOf k rows, (groupRows_eq_ok hnames hk).mp h⟩
  · rintro ⟨k, groups, hk, hgroups, hout⟩
    have hne : [] ∉ groups := fun hmem => by
      obtain ⟨row, -, first, cells, hfirst, -⟩ := exists_of_mem_right hout.flip hmem
      cases hfirst
    have hne' : [] ∉ groupsOf k rows := fun hmem => by
      obtain ⟨text, htext, hnil⟩ := List.mem_map.mp hmem
      exact rowsOf_ne_nil htext hnil
    rw [hgroups.unique hne (partitions_groupsOf k rows) hne'] at hout
    exact (groupRows_eq_ok hnames hk).mpr hout

/-- Four rows with three key texts: two rows with one object as their key, a row without a key
between them, and a row whose key lists the members of that object the other way round. -/
theorem Stage.group_partitions_of_four :
    let key : Expr := .field "k"
    let fields : List (String × Accumulator) :=
      [("first", .first (.field "m")), ("all", .push (.field "m"))]
    let pq : Json := .obj [("p", .int 1), ("q", .int 2)]
    let qp : Json := .obj [("q", .int 2), ("p", .int 1)]
    let rows : List Json := [.obj [("k", pq), ("m", .str "a")], .single "m" (.str "b"),
      .obj [("k", pq), ("m", .str "c")], .obj [("k", qp), ("m", .str "d")]]
    let out : List Json := [
      .obj [("_id", pq), ("first", .str "a"), ("all", .strings ["a", "c"])],
      .obj [("_id", .null), ("first", .str "b"), ("all", .strings ["b"])],
      .obj [("_id", qp), ("first", .str "d"), ("all", .strings ["d"])]]
    Stage.apply (fun _ => []) (.group key fields) rows = .ok out
      ∧ ∃ (k : Json → Json) (groups : List (List Json)),
        Partitions k rows groups ∧ List.Forall₂ (Summarizes fields k) groups out := by
  intro key fields pq qp rows out
  have hnames : (Field.id :: fields.map (·.1)).Nodup := by decide
  have hrun : Stage.apply (fun _ => []) (.group key fields) rows = .ok out := rfl
  obtain ⟨k, groups, -, hgroups, hout⟩ := (Stage.group_partitions (fun _ => []) hnames).mp hrun
  exact ⟨hrun, k, groups, hgroups, hout⟩

end RunTable
