import Mathlib.Data.List.Induction
import RunTable.Proofs.Outcomes

/-!
# Groups and the rows they are made of

Groups are built one row at a time, and a group is open until the last row has been seen. What a
row of the result holds is clearer from the other end: it belongs to one key text, and it is
computed from the rows with that text alone, in their order, as if there were no others.

The buckets keep this description at each step. A row of a known text changes one bucket, to which
it is the next row, and a row of a new text opens a bucket behind the others, of which it is the
only row. Either way the other texts have the rows they had.

The cells of a bucket are carried on from row to row too. What they hold in the end is said without
the carrying: the value for the first row of the group, or the list of the values for all of them.
This is also what has to be evaluated, so grouping fails in no other case.
-/

namespace RunTable

open Outcome

variable {key : Expr} {fields : List (String × Accumulator)} {k : Json → Json}
  {rows : List Json} {row first : Json} {text other : String} {bucket : Bucket}
  {buckets buckets' : List Bucket} {cells cells' : List Json}

/-- The key texts of some rows, in the order of the first row of each. -/
def keyTexts (k : Json → Json) (rows : List Json) : List String :=
  (rows.map fun row => (k row).text).eraseDups

def rowsOf (k : Json → Json) (text : String) (rows : List Json) : List Json :=
  rows.filter fun row => (k row).text == text

/-- The values of some accumulators over some rows: started at the first row and carried on by each
of them. -/
def groupCells (fields : List (String × Accumulator)) (rows : List Json) :
    Except EvalError (List Json) :=
  match rows with
  | [] => .ok []
  | first :: _ => do
    let cells ← fields.mapM fun field => field.2.start first
    rows.foldlM (fun cells row => Accumulator.step row fields cells) cells

/-- The bucket of a key text after some rows: its key is that of the first row with this text, and
its cells are computed from the rows with this text. -/
structure Bucket.Describes (fields : List (String × Accumulator)) (k : Json → Json)
    (rows : List Json) (text : String) (bucket : Bucket) : Prop where
  keyText : bucket.keyText = text
  key : (rowsOf k text rows).head?.map k = some bucket.key
  cells : groupCells fields (rowsOf k text rows) = .ok bucket.cells

/-! ## The rows of a text -/

theorem rowsOf_append (rows more : List Json) :
    rowsOf k text (rows ++ more) = rowsOf k text rows ++ rowsOf k text more := List.filter_append ..

theorem rowsOf_append_self (h : (k row).text = text) :
    rowsOf k text (rows ++ [row]) = rowsOf k text rows ++ [row] := by
  simp [rowsOf, List.filter_append, h]

theorem rowsOf_append_of_ne (h : (k row).text ≠ text) :
    rowsOf k text (rows ++ [row]) = rowsOf k text rows := by
  simp [rowsOf, List.filter_append, h]

theorem mem_rowsOf : row ∈ rowsOf k text rows ↔ row ∈ rows ∧ (k row).text = text := by
  rw [rowsOf, List.mem_filter, beq_iff_eq]

theorem mem_keyTexts : text ∈ keyTexts k rows ↔ ∃ row ∈ rows, (k row).text = text := by
  simp [keyTexts]

theorem rowsOf_eq_nil (h : text ∉ keyTexts k rows) : rowsOf k text rows = [] := by
  refine List.eq_nil_iff_forall_not_mem.mpr fun row hrow => h (mem_keyTexts.mpr ⟨row, ?_⟩)
  exact mem_rowsOf.mp hrow

theorem rowsOf_ne_nil (h : text ∈ keyTexts k rows) : rowsOf k text rows ≠ [] := by
  obtain ⟨row, hrow, htext⟩ := mem_keyTexts.mp h
  exact List.ne_nil_of_mem (mem_rowsOf.mpr ⟨hrow, htext⟩)

theorem keyTexts_append_of_mem (h : (k row).text ∈ keyTexts k rows) :
    keyTexts k (rows ++ [row]) = keyTexts k rows := by
  have hmem : (k row).text ∈ rows.map fun row => (k row).text := by
    simpa [keyTexts] using h
  rw [keyTexts, keyTexts, List.map_append, List.eraseDups_append]
  simp only [List.map_cons, List.map_nil, List.removeAll, List.filter_cons, List.filter_nil]
  simp [hmem]

theorem keyTexts_append_of_not_mem (h : (k row).text ∉ keyTexts k rows) :
    keyTexts k (rows ++ [row]) = keyTexts k rows ++ [(k row).text] := by
  have hmem : (k row).text ∉ rows.map fun row => (k row).text := by
    simpa [keyTexts] using h
  rw [keyTexts, keyTexts, List.map_append, List.eraseDups_append]
  simp only [List.map_cons, List.map_nil, List.removeAll, List.filter_cons, List.filter_nil]
  simp [hmem, List.eraseDups_cons]

theorem nodup_keyTexts : (keyTexts k rows).Nodup := by
  induction rows using List.reverseRecOn with
  | nil => exact List.nodup_nil
  | append_singleton rows row ih =>
      by_cases h : (k row).text ∈ keyTexts k rows
      · rw [keyTexts_append_of_mem h]
        exact ih
      · rw [keyTexts_append_of_not_mem h, List.nodup_append]
        refine ⟨ih, by simp, fun text htext last hlast => ?_⟩
        rw [List.mem_singleton.mp hlast]
        exact fun heq => h (heq ▸ htext)

theorem keyTexts_prefix (rows more : List Json) :
    keyTexts k rows <+: keyTexts k (rows ++ more) := by
  rw [keyTexts, keyTexts, List.map_append, List.eraseDups_append]
  exact List.prefix_append _ _

/-- A row whose text no row before it has stands where the texts before it end. -/
theorem keyTexts_getElem? {before after : List Json} (h : ∀ r ∈ before, (k r).text ≠ (k row).text) :
    (keyTexts k (before ++ row :: after))[(keyTexts k before).length]? = some (k row).text := by
  have hnot : (k row).text ∉ keyTexts k before := fun hmem => by
    obtain ⟨r, hr, htext⟩ := mem_keyTexts.mp hmem
    exact h r hr htext
  obtain ⟨rest, hrest⟩ := keyTexts_prefix (k := k) (before ++ [row]) after
  rw [List.append_assoc, List.singleton_append] at hrest
  rw [← hrest, keyTexts_append_of_not_mem hnot, List.append_assoc]
  simp

theorem rowsOf_eq_single {before after : List Json}
    (h : ∀ r ∈ before ++ after, (k r).text ≠ (k row).text) :
    rowsOf k (k row).text (before ++ row :: after) = [row] := by
  have hbefore : ∀ r ∈ before, ¬ ((k r).text == (k row).text) = true := fun r hr => by
    simpa using h r (List.mem_append_left _ hr)
  have hafter : ∀ r ∈ after, ¬ ((k r).text == (k row).text) = true := fun r hr => by
    simpa using h r (List.mem_append_right _ hr)
  rw [rowsOf, List.filter_append, List.filter_cons, if_pos (by simp),
    List.filter_eq_nil_iff.mpr hbefore, List.filter_eq_nil_iff.mpr hafter]
  rfl

theorem rowsOf_of_nodup (h : (rows.map fun row => (k row).text).Nodup) (hrow : row ∈ rows) :
    rowsOf k (k row).text rows = [row] := by
  obtain ⟨before, after, rfl⟩ := List.append_of_mem hrow
  refine rowsOf_eq_single fun r hr htext => ?_
  rw [List.map_append, List.map_cons, List.nodup_append, List.nodup_cons] at h
  obtain ⟨-, ⟨hafter, -⟩, hbefore⟩ := h
  rcases List.mem_append.mp hr with hr | hr
  · exact hbefore _ (List.mem_map_of_mem hr) _ List.mem_cons_self htext
  · exact hafter (List.mem_map.mpr ⟨r, hr, htext⟩)

/-! ## Rows that were made of other rows

A stage before the grouping may have made several rows of one, all with the key of the row they come
from. The groups are then those of the rows as they were. -/

section Made

variable {make : Json → List Json} {sources : List Json}

theorem rowsOf_flatMap (hkey : ∀ source ∈ sources, ∀ row ∈ make source,
    (k row).text = (k source).text) :
    rowsOf k text (sources.flatMap make) = (rowsOf k text sources).flatMap make := by
  induction sources with
  | nil => rfl
  | cons source sources ih =>
      have ih := ih fun s hs => hkey s (List.mem_cons_of_mem _ hs)
      have hhead : rowsOf k text (make source)
          = if (k source).text = text then make source else [] := by
        rw [rowsOf, List.filter_congr (q := fun _ => (k source).text == text) fun row hrow => by
          rw [hkey source List.mem_cons_self row hrow]]
        by_cases h : (k source).text = text <;> simp [h]
      rw [List.flatMap_cons, rowsOf_append, hhead, ih]
      by_cases h : (k source).text = text <;> simp [rowsOf, h]

/-- A block of rows of one text counts like a single one. -/
theorem keyTexts_append_block {base made : List Json} (hne : made ≠ [])
    (hkey : ∀ r ∈ made, (k r).text = (k row).text) (h : keyTexts k base = keyTexts k rows) :
    keyTexts k (base ++ made) = keyTexts k (rows ++ [row]) := by
  induction made using List.reverseRecOn with
  | nil => exact absurd rfl hne
  | append_singleton made last ih =>
      have hlast : (k last).text = (k row).text := hkey last (by simp)
      rw [← List.append_assoc]
      by_cases hmade : made = []
      · rw [hmade, List.append_nil]
        by_cases hmem : (k row).text ∈ keyTexts k rows
        · rw [keyTexts_append_of_mem hmem, keyTexts_append_of_mem (by rwa [hlast, h]), h]
        · rw [keyTexts_append_of_not_mem hmem, keyTexts_append_of_not_mem (by rwa [hlast, h]), h,
            hlast]
      · have ih := ih hmade fun r hr => hkey r (List.mem_append_left _ hr)
        have hmem : (k last).text ∈ keyTexts k (base ++ made) := by
          rw [hlast, ih]
          exact mem_keyTexts.mpr ⟨row, by simp, rfl⟩
        rw [keyTexts_append_of_mem hmem, ih]

theorem keyTexts_flatMap (hne : ∀ source ∈ sources, make source ≠ [])
    (hkey : ∀ source ∈ sources, ∀ row ∈ make source, (k row).text = (k source).text) :
    keyTexts k (sources.flatMap make) = keyTexts k sources := by
  induction sources using List.reverseRecOn with
  | nil => rfl
  | append_singleton sources source ih =>
      rw [List.flatMap_append, List.flatMap_singleton]
      refine keyTexts_append_block (hne source (by simp)) (hkey source (by simp)) (ih ?_ ?_)
      · exact fun s hs => hne s (List.mem_append_left _ hs)
      · exact fun s hs => hkey s (List.mem_append_left _ hs)

end Made

theorem keyTexts_of_nodup (h : (rows.map fun row => (k row).text).Nodup) :
    keyTexts k rows = rows.map fun row => (k row).text := by
  induction rows using List.reverseRecOn with
  | nil => rfl
  | append_singleton rows row ih =>
      rw [List.map_append, List.nodup_append] at h
      have hnot : (k row).text ∉ keyTexts k rows := fun hmem => by
        rw [ih h.1] at hmem
        exact h.2.2 _ hmem _ (by simp) rfl
      rw [keyTexts_append_of_not_mem hnot, ih h.1, List.map_append]
      rfl

/-! ## One more row -/

/-- The first row of a group starts its cells and is then added like any other. -/
theorem groupCells_single : groupCells fields [row]
    = (fields.mapM fun field => field.2.start row) >>= Accumulator.step row fields := by
  simp [groupCells]

theorem groupCells_append (h : rows ≠ []) : groupCells fields (rows ++ [row])
    = groupCells fields rows >>= Accumulator.step row fields := by
  cases rows with
  | nil => exact absurd rfl h
  | cons first others =>
      simp only [groupCells, List.foldlM_append, bind_assoc]
      simp

theorem Bucket.Describes.rowsOf_ne_nil (h : bucket.Describes fields k rows text) :
    rowsOf k text rows ≠ [] := fun hnil => by
  have hkey := h.key
  rw [hnil] at hkey
  cases hkey

theorem Bucket.Describes.append_of_ne (h : bucket.Describes fields k rows text)
    (hne : (k row).text ≠ text) : bucket.Describes fields k (rows ++ [row]) text where
  keyText := h.keyText
  key := by rw [rowsOf_append_of_ne hne, h.key]
  cells := by rw [rowsOf_append_of_ne hne, h.cells]

/-- A row is the next one of the bucket of its text. -/
theorem Bucket.Describes.append_self {cells : List Json}
    (h : bucket.Describes fields k rows (k row).text)
    (hstep : Accumulator.step row fields bucket.cells = .ok cells) :
    Bucket.Describes fields k (rows ++ [row]) (k row).text { bucket with cells } where
  keyText := h.keyText
  key := by
    rw [rowsOf_append_self rfl, List.head?_append, ← h.key]
    cases hrows : (rowsOf k (k row).text rows).head? with
    | none =>
        have hkey := h.key
        rw [hrows] at hkey
        cases hkey
    | some first => rfl
  cells := by
    rw [rowsOf_append_self rfl, groupCells_append h.rowsOf_ne_nil, h.cells]
    exact hstep

theorem describes_append_of_not_mem {texts : List String}
    (h : List.Forall₂ (Bucket.Describes fields k rows) texts buckets)
    (hrow : (k row).text ∉ texts) :
    List.Forall₂ (Bucket.Describes fields k (rows ++ [row])) texts buckets := by
  have hne : ∀ text ∈ texts, (k row).text ≠ text := fun text htext heq => hrow (heq ▸ htext)
  exact forall₂_imp_of_mem h fun text htext _ hb => hb.append_of_ne (hne text htext)

/-- A row of a known text changes one bucket. -/
theorem describes_add_known {texts : List String} (hnodup : texts.Nodup)
    (h : List.Forall₂ (Bucket.Describes fields k rows) texts buckets)
    (hrow : (k row).text ∈ texts)
    (hadd : Bucket.add fields (k row) (k row).text row buckets = .ok buckets') :
    List.Forall₂ (Bucket.Describes fields k (rows ++ [row])) texts buckets' := by
  induction h generalizing buckets' with
  | nil => cases hrow
  | @cons text bucket texts buckets hbucket hrest ih =>
      obtain ⟨hnot, hnodup⟩ := List.nodup_cons.mp hnodup
      rw [Bucket.add, hbucket.keyText] at hadd
      split at hadd
      -- texts are apart, so no bucket behind this one has the text of the row
      · next htext =>
          subst htext
          obtain ⟨cells, hcells, hret⟩ := bind_eq_ok.mp hadd
          cases hret
          have hself := hbucket.append_self hcells
          rw [hbucket.keyText] at hself
          exact .cons hself (describes_append_of_not_mem hrest hnot)
      · next htext =>
          obtain ⟨buckets₁, hadd₁, hret⟩ := bind_eq_ok.mp hadd
          cases hret
          have hmem : (k row).text ∈ texts :=
            (List.mem_cons.mp hrow).resolve_left fun heq => htext heq.symm
          exact .cons (hbucket.append_of_ne fun heq => htext heq.symm) (ih hnodup hmem hadd₁)

/-- A row of a new text opens a bucket behind the others. -/
theorem describes_add_new {texts : List String}
    (h : List.Forall₂ (Bucket.Describes fields k rows) texts buckets)
    (hrow : (k row).text ∉ texts) (hnone : rowsOf k (k row).text rows = [])
    (hadd : Bucket.add fields (k row) (k row).text row buckets = .ok buckets') :
    List.Forall₂ (Bucket.Describes fields k (rows ++ [row])) (texts ++ [(k row).text])
      buckets' := by
  induction h generalizing buckets' with
  | nil =>
      obtain ⟨start, hstart, hrest⟩ := bind_eq_ok.mp hadd
      obtain ⟨cells, hcells, hret⟩ := bind_eq_ok.mp hrest
      cases hret
      have hrows : rowsOf k (k row).text (rows ++ [row]) = [row] := by
        rw [rowsOf_append_self rfl, hnone, List.nil_append]
      refine .cons ⟨rfl, by rw [hrows]; rfl, ?_⟩ .nil
      rw [hrows, groupCells_single]
      exact bind_eq_ok.mpr ⟨start, hstart, hcells⟩
  | @cons text bucket texts buckets hbucket hrest ih =>
      rw [List.mem_cons, not_or] at hrow
      rw [Bucket.add, hbucket.keyText, if_neg (Ne.symm hrow.1)] at hadd
      obtain ⟨buckets₁, hadd₁, hret⟩ := bind_eq_ok.mp hadd
      cases hret
      exact .cons (hbucket.append_of_ne hrow.1) (ih hrow.2 hadd₁)

/-! ## All rows -/

/-- The open buckets of some rows. -/
def openBuckets (key : Expr) (fields : List (String × Accumulator)) (rows : List Json) :
    Except EvalError (List Bucket) :=
  rows.foldlM (fun buckets row => do
    let k ← key.eval row
    Bucket.add fields k k.text row buckets) []

/-- There is one bucket for each key text, and it describes the rows of this text. -/
theorem describes_openBuckets (hk : ∀ row ∈ rows, key.eval row = .ok (k row))
    (h : openBuckets key fields rows = .ok buckets) :
    List.Forall₂ (Bucket.Describes fields k rows) (keyTexts k rows) buckets := by
  -- rows are added behind each other, so the last row is the one that is added last
  induction rows using List.reverseRecOn generalizing buckets with
  | nil =>
      cases h
      exact .nil
  | append_singleton rows row ih =>
      rw [openBuckets, List.foldlM_append] at h
      obtain ⟨before, hbefore, hrow⟩ := bind_eq_ok.mp h
      have hkrow : key.eval row = .ok (k row) := hk row (by simp)
      have hadd : Bucket.add fields (k row) (k row).text row before = .ok buckets := by
        simpa [hkrow] using hrow
      have hrows := ih (fun row hrow => hk row (List.mem_append_left _ hrow)) hbefore
      by_cases hmem : (k row).text ∈ keyTexts k rows
      · rw [keyTexts_append_of_mem hmem]
        exact describes_add_known nodup_keyTexts hrows hmem hadd
      · rw [keyTexts_append_of_not_mem hmem]
        exact describes_add_new hrows hmem (rowsOf_eq_nil hmem) hadd

/-- A row of the result: the key and the cells of the rows of one text. -/
def IsGroup (fields : List (String × Accumulator)) (k : Json → Json) (rows : List Json)
    (text : String) (result : Json) : Prop :=
  ∃ first cells, (rowsOf k text rows).head? = some first
    ∧ groupCells fields (rowsOf k text rows) = .ok cells
    ∧ result = .obj (Table.ofList ((Field.id, k first) :: (fields.map (·.1)).zip cells))

/-- Grouping gives one row for each key text, in the order of their first rows. -/
theorem isGroup_groupRows {result : List Json} (hk : ∀ row ∈ rows, key.eval row = .ok (k row))
    (h : groupRows key fields rows = .ok result) :
    List.Forall₂ (IsGroup fields k rows) (keyTexts k rows) result := by
  obtain ⟨buckets, hbuckets, hret⟩ := bind_eq_ok.mp h
  cases hret
  rw [List.forall₂_map_right_iff]
  refine (describes_openBuckets hk hbuckets).imp fun text bucket hbucket => ?_
  obtain ⟨first, hfirst, hkey⟩ := Option.map_eq_some_iff.mp hbucket.key
  refine ⟨first, bucket.cells, hfirst, hbucket.cells, ?_⟩
  rw [Bucket.toRow, hkey]

/-! ## The cells of a group -/

/-- What an accumulator holds after some rows of a group with a given first row: the value for the
first row, or the values for all rows in order. -/
def Accumulator.Holds (first : Json) (rows : List Json) : Accumulator → Json → Prop
  | .first value, cell => value.eval first = .ok cell
  | .push value, cell => ∃ items, rows.mapM value.eval = .ok items ∧ cell = .arr items

namespace Accumulator

theorem start_eq_ok {acc : Accumulator} {cell : Json} :
    acc.start row = .ok cell ↔ acc.Holds row [] cell := by
  cases acc with
  | first value => rfl
  | push value =>
      rw [start, Holds, List.mapM_nil]
      constructor
      · intro h
        cases h
        exact ⟨[], rfl, rfl⟩
      · rintro ⟨items, hitems, rfl⟩
        cases hitems
        rfl

/-- What is held after some rows was preceded by what was held after the first of them. -/
theorem Holds.exists_before {acc : Accumulator} {more : List Json} {cell : Json}
    (h : acc.Holds first (rows ++ more) cell) : ∃ cell', acc.Holds first rows cell' := by
  cases acc with
  | first value => exact ⟨cell, h⟩
  | push value =>
      obtain ⟨items, hitems, -⟩ := h
      rw [List.mapM_append] at hitems
      obtain ⟨before, hbefore, -⟩ := bind_eq_ok.mp hitems
      exact ⟨.arr before, before, hbefore, rfl⟩

theorem holds_push_append {value : Expr} {items : List Json} {cell : Json}
    (h : rows.mapM value.eval = .ok items) :
    (push value).Holds first (rows ++ [row]) cell
      ↔ ∃ v, value.eval row = .ok v ∧ cell = .arr (items ++ [v]) := by
  have happend : (rows ++ [row]).mapM value.eval
      = value.eval row >>= fun v => .ok (items ++ [v]) := by
    rw [List.mapM_append, h, ok_bind, List.mapM_cons]
    cases value.eval row <;> rfl
  rw [Holds, happend]
  constructor
  · rintro ⟨all, hall, rfl⟩
    obtain ⟨v, hv, hret⟩ := bind_eq_ok.mp hall
    cases hret
    exact ⟨v, hv, rfl⟩
  · rintro ⟨v, hv, rfl⟩
    exact ⟨_, bind_eq_ok.mpr ⟨v, hv, rfl⟩, rfl⟩

theorem exists_holds_before (before : List Json) {more : List Json} {field : String × Accumulator}
    (h : List.Forall₂ (fun field cell => field.2.Holds first (before ++ more) cell) fields cells)
    (hfield : field ∈ fields) : ∃ cell, field.2.Holds first before cell := by
  obtain ⟨cell, -, hcell⟩ := exists_of_mem_right h.flip hfield
  exact Holds.exists_before hcell

theorem Holds.unique {acc : Accumulator} {cell cell' : Json} (h : acc.Holds first rows cell)
    (h' : acc.Holds first rows cell') : cell = cell' := by
  cases acc with
  | first value => exact Except.ok.inj (h.symm.trans h')
  | push value =>
      obtain ⟨items, hitems, rfl⟩ := h
      obtain ⟨items', hitems', rfl⟩ := h'
      rw [Except.ok.inj (hitems.symm.trans hitems')]

theorem rightUnique_holds (first : Json) (rows : List Json) :
    Relator.RightUnique fun (field : String × Accumulator) cell => field.2.Holds first rows cell :=
  fun _ _ _ => Holds.unique

theorem step_first {name : String} {value : Expr} {cell : Json} :
    step row ((name, .first value) :: fields) (cell :: cells)
      = step row fields cells >>= fun rest => .ok (cell :: rest) := rfl

/-- A row carries each accumulator on to what it holds after that row too. -/
theorem step_eq_ok
    (h : List.Forall₂ (fun field cell => field.2.Holds first rows cell) fields cells) :
    step row fields cells = .ok cells'
      ↔ List.Forall₂ (fun field cell => field.2.Holds first (rows ++ [row]) cell) fields
        cells' := by
  induction h generalizing cells' with
  | nil =>
      rw [List.forall₂_nil_left_iff, show step row [] [] = .ok [] from rfl, Except.ok.injEq,
        eq_comm]
  | @cons field cell fields cells hcell _ ih =>
      obtain ⟨name, acc⟩ := field
      rw [List.forall₂_cons_left_iff]
      cases acc with
      | first value =>
          rw [step_first, bind_eq_ok]
          constructor
          · rintro ⟨rest, hrest, hret⟩
            cases hret
            exact ⟨cell, rest, hcell, ih.mp hrest, rfl⟩
          · rintro ⟨cell', rest, hcell', hrest, rfl⟩
            cases hcell.symm.trans hcell'
            exact ⟨rest, ih.mpr hrest, rfl⟩
      | push value =>
          obtain ⟨items, hitems, rfl⟩ := hcell
          rw [step, bind_eq_ok]
          constructor
          · rintro ⟨v, hv, htail⟩
            obtain ⟨rest, hrest, hret⟩ := bind_eq_ok.mp htail
            cases hret
            exact ⟨_, rest, (holds_push_append hitems).mpr ⟨v, hv, rfl⟩, ih.mp hrest, rfl⟩
          · rintro ⟨cell', rest, hcell', hrest, rfl⟩
            obtain ⟨v, hv, rfl⟩ := (holds_push_append hitems).mp hcell'
            exact ⟨v, hv, bind_eq_ok.mpr ⟨rest, ih.mpr hrest, rfl⟩⟩

theorem foldlM_step_eq_ok {before : List Json}
    (h : List.Forall₂ (fun field cell => field.2.Holds first before cell) fields cells) :
    rows.foldlM (fun cells row => step row fields cells) cells = .ok cells'
      ↔ List.Forall₂ (fun field cell => field.2.Holds first (before ++ rows) cell) fields
        cells' := by
  induction rows generalizing before cells with
  | nil =>
      rw [List.append_nil, List.foldlM_nil]
      refine ⟨fun hret => Except.ok.inj hret ▸ h, fun h' => congrArg Except.ok ?_⟩
      exact List.right_unique_forall₂' (rightUnique_holds first before) h h'
  | cons row rows ih =>
      rw [List.foldlM_cons, bind_eq_ok, ← List.singleton_append, ← List.append_assoc]
      constructor
      · rintro ⟨between, hstep, hrest⟩
        exact (ih ((step_eq_ok h).mp hstep)).mp hrest
      · intro hcells
        obtain ⟨between, hbetween⟩ := exists_forall₂ fun field hfield =>
          exists_holds_before (before ++ [row]) hcells hfield
        exact ⟨between, (step_eq_ok h).mpr hbetween, (ih hbetween).mpr hcells⟩

end Accumulator

theorem groupCells_eq_ok (hfirst : rows.head? = some first) : groupCells fields rows = .ok cells
    ↔ List.Forall₂ (fun field cell => field.2.Holds first rows cell) fields cells := by
  obtain ⟨rest, rfl⟩ := List.head?_eq_some_iff.mp hfirst
  rw [groupCells, bind_eq_ok]
  constructor
  · rintro ⟨starts, hstarts, hcells⟩
    have hstarts := (mapM_eq_ok.mp hstarts).imp fun _ _ => Accumulator.start_eq_ok.mp
    exact (Accumulator.foldlM_step_eq_ok hstarts).mp hcells
  · intro hcells
    obtain ⟨starts, hstarts⟩ := exists_forall₂ fun field hfield =>
      Accumulator.exists_holds_before [] hcells hfield
    refine ⟨starts, mapM_eq_ok.mpr (hstarts.imp fun _ _ => Accumulator.start_eq_ok.mpr), ?_⟩
    exact (Accumulator.foldlM_step_eq_ok hstarts).mpr hcells

/-! ## When grouping succeeds -/

/-- A row is added if the cells of its group can be carried on by it. -/
theorem add_ok_of_describes {texts : List String}
    (h : List.Forall₂ (Bucket.Describes fields k rows) texts buckets)
    (hnone : (k row).text ∉ texts → rowsOf k (k row).text rows = [])
    (hcells : ∃ cells, groupCells fields (rowsOf k (k row).text (rows ++ [row])) = .ok cells) :
    ∃ buckets', Bucket.add fields (k row) (k row).text row buckets = .ok buckets' := by
  obtain ⟨cells, hcells⟩ := hcells
  rw [rowsOf_append_self rfl] at hcells
  induction h with
  | nil =>
      rw [hnone List.not_mem_nil, List.nil_append, groupCells_single, bind_eq_ok] at hcells
      obtain ⟨starts, hstarts, hstep⟩ := hcells
      exact ⟨_, bind_eq_ok.mpr ⟨starts, hstarts, bind_eq_ok.mpr ⟨cells, hstep, rfl⟩⟩⟩
  | @cons text bucket texts buckets hbucket hrest ih =>
      rw [Bucket.add]
      split
      · next htext =>
          rw [hbucket.keyText] at htext
          subst htext
          rw [groupCells_append hbucket.rowsOf_ne_nil, hbucket.cells, ok_bind] at hcells
          exact ⟨_, bind_eq_ok.mpr ⟨cells, hcells, rfl⟩⟩
      · next htext =>
          rw [hbucket.keyText] at htext
          obtain ⟨rest, hadd⟩ := ih fun hnot => hnone fun hmem =>
            (List.mem_cons.mp hmem).elim (fun heq => htext heq.symm) hnot
          exact ⟨_, bind_eq_ok.mpr ⟨rest, hadd, rfl⟩⟩

/-- Buckets can be opened for all rows if each group has its cells. -/
theorem exists_openBuckets (hk : ∀ row ∈ rows, key.eval row = .ok (k row))
    (hcells : ∀ text ∈ keyTexts k rows,
      ∃ cells, groupCells fields (rowsOf k text rows) = .ok cells) :
    ∃ buckets, openBuckets key fields rows = .ok buckets := by
  induction rows using List.reverseRecOn with
  | nil => exact ⟨[], rfl⟩
  | append_singleton rows row ih =>
      have hkrows : ∀ r ∈ rows, key.eval r = .ok (k r) :=
        fun r hr => hk r (List.mem_append_left _ hr)
      obtain ⟨before, hbefore⟩ := ih hkrows fun text htext => by
        have hgrow := keyTexts_prefix (k := k) rows [row]
        obtain ⟨cells, hcells⟩ := hcells text (hgrow.subset htext)
        by_cases hrow : (k row).text = text
        · rw [rowsOf_append_self hrow, groupCells_append (rowsOf_ne_nil htext)] at hcells
          obtain ⟨between, hbetween, -⟩ := bind_eq_ok.mp hcells
          exact ⟨between, hbetween⟩
        · rw [rowsOf_append_of_ne hrow] at hcells
          exact ⟨cells, hcells⟩
      have hself := hcells (k row).text (mem_keyTexts.mpr ⟨row, by simp, rfl⟩)
      obtain ⟨buckets, hadd⟩ :=
        add_ok_of_describes (describes_openBuckets hkrows hbefore) rowsOf_eq_nil hself
      refine ⟨buckets, ?_⟩
      rw [openBuckets, List.foldlM_append]
      refine bind_eq_ok.mpr ⟨before, hbefore, ?_⟩
      simpa [hk row (by simp)] using hadd

/-- Grouping succeeds if each row has a key and each group has its cells. -/
theorem exists_groupRows (hk : ∀ row ∈ rows, key.eval row = .ok (k row))
    (hcells : ∀ text ∈ keyTexts k rows,
      ∃ cells, groupCells fields (rowsOf k text rows) = .ok cells) :
    ∃ result, groupRows key fields rows = .ok result := by
  obtain ⟨buckets, hbuckets⟩ := exists_openBuckets hk hcells
  exact ⟨_, bind_eq_ok.mpr ⟨buckets, hbuckets, rfl⟩⟩

/-- The expression that an accumulator evaluates. -/
def Accumulator.value : Accumulator → Expr
  | .first value => value
  | .push value => value

theorem Accumulator.exists_holds {acc : Accumulator} (hfirst : first ∈ rows)
    (h : ∀ row ∈ rows, ∃ v, acc.value.eval row = .ok v) : ∃ cell, acc.Holds first rows cell := by
  cases acc with
  | first value => exact h first hfirst
  | push value =>
      choose! item hitem using h
      exact ⟨_, _, mapM_ok hitem, rfl⟩

/-- Nothing can fail if each key and each accumulated value has a value. -/
theorem groupRows_ok (hk : ∀ row ∈ rows, key.eval row = .ok (k row))
    (h : ∀ row ∈ rows, ∀ field ∈ fields, ∃ v, field.2.value.eval row = .ok v) :
    ∃ result, groupRows key fields rows = .ok result := by
  refine exists_groupRows hk fun text htext => ?_
  obtain ⟨first, others, hrows⟩ := List.exists_cons_of_ne_nil (rowsOf_ne_nil htext)
  have hfirst : (rowsOf k text rows).head? = some first := by rw [hrows]; rfl
  obtain ⟨cells, hcells⟩ := exists_forall₂ fun field hfield =>
    Accumulator.exists_holds (List.mem_of_mem_head? hfirst) fun row hrow =>
      h row (mem_rowsOf.mp hrow).1 field hfield
  exact ⟨cells, (groupCells_eq_ok hfirst).mpr hcells⟩

end RunTable
