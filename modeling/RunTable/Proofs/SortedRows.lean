import RunTable.Pipeline.Run
import RunTable.Proofs.ValueOrder

/-!
# The sort stage sorts

What it means to be sorted is said here without the comparison of rows: a row stands behind another
if at the first key that tells the two apart its value is the greater one, or the smaller one where
the key descends. Rows that no key tells apart tie, and a sort must not move them past each other.

That the sort of the library does so rests on the order of rows being a total preorder. The three
things asked of a sorted list leave no choice: the first row of any such list ties with the first
row of any other, and of the rows that tie with it the one that came first is the first in both.
-/

namespace RunTable

namespace SortSpec

open Document

variable {spec : SortSpec} {keys : List (String × Direction)} {rows out other : List Json}
  {a b : Json}

/-- Whether no key tells two rows apart. -/
def Ties (keys : List (String × Direction)) (a b : Json) : Prop :=
  ∀ key ∈ keys, (getOrNull key.1 a).cmp (getOrNull key.1 b) = .eq

instance : Decidable (Ties keys a b) := List.decidableBAll _ keys

/-- Whether a row belongs behind another: at the first key that tells them apart its value is the
greater one, or the smaller one if the key descends. -/
def IsBehind (keys : List (String × Direction)) (a b : Json) : Prop :=
  ∃ before field direction after, keys = before ++ (field, direction) :: after
    ∧ Ties before a b
    ∧ (getOrNull field a).cmp (getOrNull field b)
      = match direction with
        | .ascending => .gt
        | .descending => .lt

/-- Whether a list has some rows in order: it holds the same rows, none of them in front of a row
that it belongs behind, and rows that tie follow each other as they came. -/
structure Sorts (spec : SortSpec) (rows out : List Json) : Prop where
  perm : out.Perm rows
  ordered : out.Pairwise fun a b => ¬ IsBehind spec.keys a b
  stable : ∀ row, (out.filter fun r => Ties spec.keys row r)
    = rows.filter fun r => Ties spec.keys row r

/-! ## The comparison of rows -/

theorem ties_cons {field : String} {direction : Direction} :
    Ties ((field, direction) :: keys) a b
      ↔ (getOrNull field a).cmp (getOrNull field b) = .eq ∧ Ties keys a b := by
  simp only [Ties, List.forall_mem_cons]

theorem not_isBehind_nil : ¬ IsBehind [] a b := by
  rintro ⟨before, field, direction, after, hkeys, -, -⟩
  cases before <;> cases hkeys

theorem isBehind_cons {field : String} {direction : Direction} :
    IsBehind ((field, direction) :: keys) a b
      ↔ direction.orient ((getOrNull field a).cmp (getOrNull field b)) = .gt
        ∨ (getOrNull field a).cmp (getOrNull field b) = .eq ∧ IsBehind keys a b := by
  constructor
  · rintro ⟨before, field', direction', after, hkeys, hties, hcmp⟩
    cases before with
    | nil =>
        cases hkeys
        left
        rw [hcmp]
        cases direction <;> rfl
    | cons key before =>
        cases hkeys
        obtain ⟨hkey, hties⟩ := ties_cons.mp hties
        exact .inr ⟨hkey, before, field', direction', after, rfl, hties, hcmp⟩
  · rintro (hcmp | ⟨hcmp, before, field', direction', after, rfl, hties, hcmp'⟩)
    · refine ⟨[], field, direction, keys, rfl, fun _ hkey => absurd hkey List.not_mem_nil, ?_⟩
      cases direction with
      | ascending => exact hcmp
      | descending => exact Ordering.swap_eq_gt.mp hcmp
    · exact ⟨(field, direction) :: before, field', direction', after, rfl,
        ties_cons.mpr ⟨hcmp, hties⟩, hcmp'⟩

theorem cmpBy_eq_gt_iff : cmpBy keys a b = .gt ↔ IsBehind keys a b := by
  induction keys with
  | nil => exact ⟨fun h => (by cases h), fun h => absurd h not_isBehind_nil⟩
  | cons key keys ih =>
      obtain ⟨field, direction⟩ := key
      rw [cmpBy, Ordering.then_eq_gt, ih, isBehind_cons]
      cases direction with
      | ascending => rfl
      | descending => rw [Direction.orient, Ordering.swap_eq_eq]

instance : Decidable (IsBehind keys a b) := decidable_of_iff _ cmpBy_eq_gt_iff

/-- The test by which rows are sorted. -/
theorem le_iff_not_isBehind : (spec.cmp a b != .gt) = true ↔ ¬ IsBehind spec.keys a b := by
  rw [bne_iff_ne, ne_eq, cmp, cmpBy_eq_gt_iff]

theorem ties_of_not_isBehind (hab : ¬ IsBehind spec.keys a b) (hba : ¬ IsBehind spec.keys b a) :
    Ties spec.keys a b :=
  cmpBy_eq_eq_iff.mp (cmp_eq_of_le (le_iff_not_isBehind.mpr hab) (le_iff_not_isBehind.mpr hba))

theorem ties_self (row : Json) : Ties keys row row := fun _ _ => Std.ReflCmp.compare_self

theorem not_isBehind_of_ties (h : Ties spec.keys a b) : ¬ IsBehind spec.keys a b := by
  rw [← cmpBy_eq_gt_iff, cmpBy_eq_eq_iff.mpr h]
  exact Ordering.noConfusion

/-- Rows that tie with one row tie with each other. -/
theorem Ties.of_common {row : Json} (ha : Ties keys row a) (hb : Ties keys row b) :
    Ties keys a b := fun key hkey =>
  Std.TransCmp.eq_trans (Std.OrientedCmp.eq_comm.mp (ha key hkey)) (hb key hkey)

/-! ## Sorting -/

theorem sublist_sort (h : out.Sublist rows)
    (hordered : out.Pairwise fun a b => ¬ IsBehind spec.keys a b) :
    out.Sublist (spec.sort rows) := by
  refine List.sublist_mergeSort (fun a b c hab hbc => ?_) (fun a b => ?_)
    (hordered.imp le_iff_not_isBehind.mpr) h
  · exact le_trans hab hbc
  · exact le_total spec a b

/-- Rows that tie with one row are in order as they come, so a sort leaves them as they come. -/
theorem filter_ties_sort (row : Json) :
    ((spec.sort rows).filter fun r => Ties spec.keys row r)
      = rows.filter fun r => Ties spec.keys row r := by
  have hordered : (rows.filter fun r => Ties spec.keys row r).Pairwise
      fun a b => ¬ IsBehind spec.keys a b := by
    rw [List.pairwise_filter]
    refine List.pairwise_of_forall fun a b => ?_
    simp only [decide_eq_true_eq]
    exact fun ha hb => not_isBehind_of_ties (ha.of_common hb)
  have hsublist := (sublist_sort List.filter_sublist hordered).filter
    fun r => decide (Ties spec.keys row r)
  rw [List.filter_filter] at hsublist
  simp only [Bool.and_self] at hsublist
  exact (hsublist.eq_of_length ((perm_sort spec rows).filter _).length_eq.symm).symm

theorem sorts_sort (spec : SortSpec) (rows : List Json) : spec.Sorts rows (spec.sort rows) where
  perm := perm_sort spec rows
  ordered := (pairwise_sort spec rows).imp le_iff_not_isBehind.mp
  stable := filter_ties_sort

/-- The first rows of two lists of the same rows in order tie. -/
theorem ties_of_first (hperm : (a :: out).Perm (b :: other))
    (hout : ∀ r ∈ out, ¬ IsBehind spec.keys a r) (hother : ∀ r ∈ other, ¬ IsBehind spec.keys b r) :
    Ties spec.keys a b := by
  rcases List.mem_cons.mp (hperm.mem_iff.mpr List.mem_cons_self) with rfl | hb
  · exact ties_self b
  rcases List.mem_cons.mp (hperm.mem_iff.mp List.mem_cons_self) with rfl | ha
  · exact ties_self a
  exact ties_of_not_isBehind (hout b hb) (hother a ha)

/-- Two lists of the same rows in order are the same, if the rows that tie follow each other in the
same way. -/
theorem eq_of_ordered (hperm : out.Perm other)
    (hout : out.Pairwise fun a b => ¬ IsBehind spec.keys a b)
    (hother : other.Pairwise fun a b => ¬ IsBehind spec.keys a b)
    (hstable : ∀ row, (out.filter fun r => Ties spec.keys row r)
      = other.filter fun r => Ties spec.keys row r) : out = other := by
  induction out generalizing other with
  | nil => exact (List.nil_perm.mp hperm).symm
  | cons a out ih =>
      obtain ⟨b, rest, rfl⟩ : ∃ b rest, other = b :: rest :=
        List.exists_cons_of_ne_nil fun hnil => by
          rw [hnil] at hperm
          cases hperm.eq_nil
      obtain ⟨hfront, hout⟩ := List.pairwise_cons.mp hout
      obtain ⟨hfront', hrest⟩ := List.pairwise_cons.mp hother
      -- the rows that tie with the first row begin with it in one list, with `b` in the other
      have hheads := hstable a
      rw [List.filter_cons_of_pos (by simpa using ties_self a),
        List.filter_cons_of_pos (by simpa using ties_of_first hperm hfront hfront'),
        List.cons.injEq] at hheads
      obtain ⟨rfl, -⟩ := hheads
      refine congrArg (a :: ·) (ih hperm.cons_inv hout hrest fun row => ?_)
      have hrow := hstable row
      rw [List.filter_cons, List.filter_cons] at hrow
      split at hrow
      · exact List.tail_eq_of_cons_eq hrow
      · exact hrow

theorem Sorts.unique (h : spec.Sorts rows out) (h' : spec.Sorts rows other) : out = other :=
  eq_of_ordered (h.perm.trans h'.perm.symm) h.ordered h'.ordered fun row =>
    (h.stable row).trans (h'.stable row).symm

end SortSpec

/-- The sort stage succeeds and puts its rows in order, in the one way there is: the result holds
the same rows, no row stands in front of one that it belongs behind, and rows that tie at every key
stay in the order they came in. -/
theorem Stage.sort_sorts (collections : Collections) (spec : SortSpec) (rows : List Json) :
    ∃ out, Stage.apply collections (.sort spec) rows = .ok out ∧ spec.Sorts rows out
      ∧ ∀ other, spec.Sorts rows other → other = out :=
  ⟨spec.sort rows, rfl, SortSpec.sorts_sort spec rows, fun _ hother =>
    hother.unique (SortSpec.sorts_sort spec rows)⟩

/-- The highest rate first and equal rates by identifier. A field that is a key adds none. -/
example :
    let byRate : SortSpec := { primary := "rate", direction := .descending }
    let spec := (byRate.thenBy "_id" .ascending).thenBy "rate" .ascending
    let row := fun (id rate : Int) => Json.obj [("_id", .int id), ("rate", .int rate)]
    spec.keys = [("rate", .descending), ("_id", .ascending)]
      ∧ SortSpec.IsBehind spec.keys (row 3 5) (row 1 5)
      ∧ [row 2 9, row 1 5, row 3 5, .single "_id" (.int 0)].Pairwise fun a b =>
        ¬ SortSpec.IsBehind spec.keys a b := by decide

end RunTable
