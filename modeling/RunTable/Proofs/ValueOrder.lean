import Mathlib.Data.List.Pairwise
import RunTable.Pipeline.Sort
import RunTable.Proofs.Frame

/-!
# The order of values is total, and sorting twice is sorting once

A page may be sorted before a join and again behind it. That the second sort changes nothing needs
the order of rows to be a total preorder, and since rows are compared by the values at their sort
keys, that the order of JSON values is one.

Transitivity is awkward to prove by structural induction in its usual form: the step for arrays and
objects has to tell a strict comparison from a level one, and that turns the three values round. So
one equation is proved instead, which says what the third comparison is while the first two do not
go up: it is the first one, and where that is level, the second. In this form a lexicographic
comparison composes because its parts do, and the three values never change places.
-/

namespace RunTable

/-- How the comparisons of three values in a row compose. -/
def Composes (ab bc ac : Ordering) : Prop :=
  ab.isLE = true → bc.isLE = true → ac = ab.then bc

/-- Lexicographic comparisons compose if their parts do. -/
theorem Composes.andThen {ab bc ac ab' bc' ac' : Ordering} (h : Composes ab bc ac)
    (h' : Composes ab' bc' ac') : Composes (ab.then ab') (bc.then bc') (ac.then ac') := by
  intro hab hbc
  rw [Ordering.isLE_then_iff_or] at hab hbc
  rcases hab with rfl | ⟨rfl, hab⟩ <;> rcases hbc with rfl | ⟨rfl, hbc⟩
  · rw [h rfl rfl]; rfl
  · rw [h rfl rfl]; rfl
  · rw [h rfl rfl]
    cases ab' <;> first | rfl | cases hab
  · rw [h rfl rfl]
    exact h' hab hbc

theorem composes_of_transCmp {α : Type} (cmp : α → α → Ordering) [Std.TransCmp cmp]
    (a b c : α) : Composes (cmp a b) (cmp b c) (cmp a c) := by
  intro hab hbc
  cases h : cmp a b with
  | lt => exact Std.TransCmp.lt_of_lt_of_isLE h hbc
  | eq => exact Std.TransCmp.congr_left h
  | gt => rw [h] at hab; cases hab

/-- A comparison that composes is a total preorder. -/
theorem transCmp_of_composes {α : Type} {cmp : α → α → Ordering}
    (hswap : ∀ a b, cmp a b = (cmp b a).swap)
    (hcomposes : ∀ a b c, Composes (cmp a b) (cmp b c) (cmp a c)) : Std.TransCmp cmp where
  eq_swap := hswap _ _
  isLE_trans {a b c} hab hbc := by
    rw [hcomposes a b c hab hbc, Ordering.isLE_then_iff_or]
    cases h : cmp a b with
    | lt => exact .inl rfl
    | eq => exact .inr ⟨rfl, hbc⟩
    | gt => rw [h] at hab; cases hab

namespace Json

theorem cmp_of_kindRank_ne {a b : Json} (h : a.kindRank ≠ b.kindRank) :
    cmp a b = compare a.kindRank b.kindRank := by
  cases a <;> cases b <;> first | rfl | exact absurd rfl h

theorem composes_of_kindRank_ne {a b c : Json}
    (h : ¬ (a.kindRank = b.kindRank ∧ b.kindRank = c.kindRank)) :
    Composes (cmp a b) (cmp b c) (cmp a c) := by
  intro hab hbc
  -- the first two values that differ in kind settle the comparison with the third
  by_cases hkab : a.kindRank = b.kindRank
  · have hkbc : b.kindRank ≠ c.kindRank := fun hkbc => h ⟨hkab, hkbc⟩
    rw [cmp_of_kindRank_ne hkbc] at hbc ⊢
    rw [cmp_of_kindRank_ne (hkab ▸ hkbc), hkab]
    have hlt : compare b.kindRank c.kindRank = .lt :=
      Nat.compare_eq_lt.mpr (Nat.lt_of_le_of_ne (Nat.isLE_compare.mp hbc) hkbc)
    rw [hlt]
    cases hcase : cmp a b with
    | gt => rw [hcase] at hab; cases hab
    | _ => rfl
  · rw [cmp_of_kindRank_ne hkab] at hab ⊢
    have hlt : a.kindRank < b.kindRank :=
      Nat.lt_of_le_of_ne (Nat.isLE_compare.mp hab) hkab
    rw [Nat.compare_eq_lt.mpr hlt]
    have hle : b.kindRank ≤ c.kindRank := by
      by_cases hkbc : b.kindRank = c.kindRank
      · exact Nat.le_of_eq hkbc
      · rw [cmp_of_kindRank_ne hkbc] at hbc
        exact Nat.isLE_compare.mp hbc
    rw [cmp_of_kindRank_ne (Nat.ne_of_lt (Nat.lt_of_lt_of_le hlt hle)),
      Nat.compare_eq_lt.mpr (Nat.lt_of_lt_of_le hlt hle)]
    rfl

mutual

theorem cmp_swap (a b : Json) : cmp a b = (cmp b a).swap := by
  by_cases hk : a.kindRank = b.kindRank
  · match a with
    | .null => cases b <;> rfl
    | .bool x =>
        cases b with
        | bool y => exact Std.OrientedOrd.eq_swap
        | _ => cases hk
    | .num x =>
        cases b with
        | num y => exact Std.OrientedOrd.eq_swap (α := Int)
        | _ => cases hk
    | .str x =>
        cases b with
        | str y => exact Std.OrientedOrd.eq_swap
        | _ => cases hk
    | .arr as =>
        cases b with
        | arr bs => exact cmpItems_swap as bs
        | _ => cases hk
    | .obj as =>
        cases b with
        | obj bs => exact cmpMembers_swap as bs
        | _ => cases hk
  · rw [cmp_of_kindRank_ne hk, cmp_of_kindRank_ne (Ne.symm hk)]
    exact Std.OrientedOrd.eq_swap
termination_by structural a

theorem cmpItems_swap (as bs : List Json) : cmpItems as bs = (cmpItems bs as).swap := by
  match as, bs with
  | [], [] => rfl
  | [], _ :: _ => rfl
  | _ :: _, [] => rfl
  | a :: as, b :: bs =>
      rw [cmpItems, cmpItems, Ordering.swap_then, ← cmp_swap a b, ← cmpItems_swap as bs]
termination_by structural as

theorem cmpMembers_swap (as bs : List (String × Json)) :
    cmpMembers as bs = (cmpMembers bs as).swap := by
  match as, bs with
  | [], [] => rfl
  | [], _ :: _ => rfl
  | _ :: _, [] => rfl
  | (j, a) :: as, (k, b) :: bs =>
      rw [cmpMembers, cmpMembers, Ordering.swap_then, Ordering.swap_then, ← cmp_swap a b,
        ← cmpMembers_swap as bs, ← Std.OrientedOrd.eq_swap (α := String)]
termination_by structural as

end

mutual

/-- The order of values composes. -/
theorem cmp_composes (a b c : Json) : Composes (cmp a b) (cmp b c) (cmp a c) := by
  by_cases hk : a.kindRank = b.kindRank ∧ b.kindRank = c.kindRank
  · obtain ⟨hab, hbc⟩ := hk
    match a with
    | .null =>
        cases b with
        | null => cases c <;> exact fun _ _ => rfl
        | _ => cases hab
    | .bool x =>
        cases b with
        | bool y =>
            cases c with
            | bool z => exact composes_of_transCmp compare x y z
            | _ => cases hbc
        | _ => cases hab
    | .num x =>
        cases b with
        | num y =>
            cases c with
            | num z =>
                exact composes_of_transCmp compare x.toDouble.key y.toDouble.key z.toDouble.key
            | _ => cases hbc
        | _ => cases hab
    | .str x =>
        cases b with
        | str y =>
            cases c with
            | str z => exact composes_of_transCmp compare x y z
            | _ => cases hbc
        | _ => cases hab
    | .arr as =>
        cases b with
        | arr bs =>
            cases c with
            | arr cs => exact cmpItems_composes as bs cs
            | _ => cases hbc
        | _ => cases hab
    | .obj as =>
        cases b with
        | obj bs =>
            cases c with
            | obj cs => exact cmpMembers_composes as bs cs
            | _ => cases hbc
        | _ => cases hab
  · exact composes_of_kindRank_ne hk
termination_by structural a

theorem cmpItems_composes (as bs cs : List Json) :
    Composes (cmpItems as bs) (cmpItems bs cs) (cmpItems as cs) := by
  match as, bs, cs with
  | [], [], [] => exact fun _ _ => rfl
  | [], [], _ :: _ => exact fun _ _ => rfl
  | [], _ :: _, [] => exact fun _ h => by cases h
  | [], _ :: _, _ :: _ => exact fun _ _ => rfl
  | _ :: _, [], _ => exact fun h _ => by cases h
  | _ :: _, _ :: _, [] => exact fun _ h => by cases h
  | a :: as, b :: bs, c :: cs =>
      exact (cmp_composes a b c).andThen (cmpItems_composes as bs cs)
termination_by structural as

theorem cmpMembers_composes (as bs cs : List (String × Json)) :
    Composes (cmpMembers as bs) (cmpMembers bs cs) (cmpMembers as cs) := by
  match as, bs, cs with
  | [], [], [] => exact fun _ _ => rfl
  | [], [], _ :: _ => exact fun _ _ => rfl
  | [], _ :: _, [] => exact fun _ h => by cases h
  | [], _ :: _, _ :: _ => exact fun _ _ => rfl
  | _ :: _, [], _ => exact fun h _ => by cases h
  | _ :: _, _ :: _, [] => exact fun _ h => by cases h
  | (j, a) :: as, (k, b) :: bs, (l, c) :: cs =>
      exact ((composes_of_transCmp compare j k l).andThen (cmp_composes a b c)).andThen
        (cmpMembers_composes as bs cs)
termination_by structural as

end

instance : Std.TransCmp cmp := transCmp_of_composes cmp_swap cmp_composes

/-- The order of values is a total preorder. A value is level with itself, and two values turned
round compare the other way round. If a value is not above a second one and that is not above a
third, then the first is not above the third, and level with it only if all three are level. -/
theorem cmp_total_preorder (a b c : Json) :
    a.cmp a = .eq ∧ b.cmp a = (a.cmp b).swap
      ∧ (a.cmp b ≠ .gt → b.cmp c ≠ .gt →
          a.cmp c ≠ .gt ∧ (a.cmp c = .eq → a.cmp b = .eq ∧ b.cmp c = .eq)) := by
  refine ⟨Std.ReflCmp.compare_self, cmp_swap b a, fun hab hbc => ?_⟩
  rw [ne_eq, Ordering.ne_gt_iff_isLE] at hab hbc ⊢
  refine ⟨Std.TransCmp.isLE_trans hab hbc, fun hac => ?_⟩
  rw [cmp_composes a b c hab hbc, Ordering.then_eq_eq] at hac
  exact hac

/-- Three objects: an integer and a double that are level in front of a difference, and a member
more behind it. -/
theorem cmp_total_preorder_of_three :
    let a : Json := .obj [("x", .arr [.int 1, .str "a"]), ("y", .null)]
    let b : Json := .obj [("x", .arr [.double { bits := 0x3FF0000000000000 }, .str "b"])]
    let c : Json := .obj [("x", .arr [.int 1, .str "b"]), ("y", .bool false)]
    a.cmp b = .lt ∧ b.cmp c = .lt ∧ b.cmp a = .gt ∧ a.cmp c ≠ .gt := by
  intro a b c
  have hab : a.cmp b = .lt := by decide
  have hbc : b.cmp c = .lt := by decide
  obtain ⟨-, hswap, htrans⟩ := cmp_total_preorder a b c
  have hba : b.cmp a = .gt := by rw [hswap, hab]; rfl
  have hac : a.cmp c ≠ .gt := (htrans (by simp [hab]) (by simp [hbc])).1
  exact ⟨hab, hbc, hba, hac⟩

/-- On scalars equality and the order agree. -/
theorem equal_iff_cmp_eq {a b : Json} (ha : a.isScalar = true) :
    a.equal b = true ↔ a.cmp b = .eq := by
  cases a with
  | null => cases b <;> simp [equal, cmp, kindRank, compare, compareOfLessAndEq]
  | bool x =>
      cases b with
      | bool y => simp [equal, cmp]
      | _ => simp [equal, cmp, kindRank, compare, compareOfLessAndEq]
  | num x =>
      cases b with
      | num y => simp [equal, cmp]
      | _ => simp [equal, cmp, kindRank, compare, compareOfLessAndEq]
  | str x =>
      cases b with
      | str y => simp [equal, cmp]
      | _ => simp [equal, cmp, kindRank, compare, compareOfLessAndEq]
  | arr items => cases ha
  | obj members => cases ha

/-- Two scalars that equal one value are level. -/
theorem cmp_eq_of_equal {a b c : Json} (ha : a.isScalar = true) (hb : b.isScalar = true)
    (hac : a.equal c = true) (hbc : b.equal c = true) : a.cmp b = .eq := by
  rw [equal_iff_cmp_eq ha] at hac
  rw [equal_iff_cmp_eq hb] at hbc
  exact Std.TransCmp.eq_trans hac (Std.OrientedCmp.eq_comm.mp hbc)

end Json

namespace SortSpec

/-! ## The order of rows -/

theorem orient_swap (direction : Direction) (order : Ordering) :
    direction.orient order.swap = (direction.orient order).swap := by
  cases direction <;> rfl

theorem cmpBy_swap (keys : List (String × Direction)) (a b : Json) :
    cmpBy keys a b = (cmpBy keys b a).swap := by
  induction keys with
  | nil => rfl
  | cons key keys ih =>
      obtain ⟨field, direction⟩ := key
      rw [cmpBy, cmpBy, Ordering.swap_then, ← orient_swap, ← Std.OrientedCmp.eq_swap, ih]

theorem orient_composes (direction : Direction) (a b c : Json) :
    Composes (direction.orient (a.cmp b)) (direction.orient (b.cmp c))
      (direction.orient (a.cmp c)) := by
  cases direction with
  | ascending => exact Json.cmp_composes a b c
  | descending =>
      simp only [Direction.orient, ← Json.cmp_swap]
      exact composes_of_transCmp (fun x y => Json.cmp y x) a b c

theorem cmpBy_composes (keys : List (String × Direction)) (a b c : Json) :
    Composes (cmpBy keys a b) (cmpBy keys b c) (cmpBy keys a c) := by
  induction keys with
  | nil => exact fun _ _ => rfl
  | cons key keys ih => exact (orient_composes key.2 _ _ _).andThen ih

instance (spec : SortSpec) : Std.TransCmp spec.cmp :=
  transCmp_of_composes (cmpBy_swap spec.keys) (cmpBy_composes spec.keys)

theorem le_iff_isLE (spec : SortSpec) (a b : Json) :
    (spec.cmp a b != .gt) = (spec.cmp a b).isLE := by
  cases spec.cmp a b <;> rfl

theorem le_trans {spec : SortSpec} {a b c : Json} (hab : (spec.cmp a b != .gt) = true)
    (hbc : (spec.cmp b c != .gt) = true) : (spec.cmp a c != .gt) = true := by
  rw [le_iff_isLE] at hab hbc ⊢
  exact Std.TransCmp.isLE_trans hab hbc

theorem le_total (spec : SortSpec) (a b : Json) :
    ((spec.cmp a b != .gt) || (spec.cmp b a != .gt)) = true := by
  rw [le_iff_isLE, le_iff_isLE, show spec.cmp b a = (spec.cmp a b).swap from cmpBy_swap _ _ _]
  cases spec.cmp a b <;> rfl

/-- No row stands behind one that is above it. -/
theorem pairwise_sort (spec : SortSpec) (rows : List Json) :
    (spec.sort rows).Pairwise fun a b => (spec.cmp a b != .gt) = true := by
  refine List.pairwise_mergeSort (fun a b c hab hbc => ?_) (fun a b => ?_) rows
  · exact le_trans hab hbc
  · exact le_total spec a b

theorem sort_of_pairwise {spec : SortSpec} {rows : List Json}
    (h : rows.Pairwise fun a b => (spec.cmp a b != .gt) = true) : spec.sort rows = rows :=
  List.mergeSort_of_pairwise h

theorem sort_pair (spec : SortSpec) (a b : Json) :
    spec.sort [a, b] = if spec.cmp a b != .gt then [a, b] else [b, a] := by
  simp [sort, List.mergeSort, List.merge, List.MergeSort.Internal.splitInTwo]

/-- Two rows are compared by the values at the sort keys alone. -/
theorem cmpBy_congr {keys : List (String × Direction)} {a a' b b' : Json}
    (ha : ∀ key ∈ keys, Document.getOrNull key.1 a = Document.getOrNull key.1 a')
    (hb : ∀ key ∈ keys, Document.getOrNull key.1 b = Document.getOrNull key.1 b') :
    cmpBy keys a b = cmpBy keys a' b' := by
  induction keys with
  | nil => rfl
  | cons key keys ih =>
      obtain ⟨field, direction⟩ := key
      rw [cmpBy, cmpBy, ha _ List.mem_cons_self, hb _ List.mem_cons_self,
        ih (fun k hk => ha k (List.mem_cons_of_mem _ hk))
          (fun k hk => hb k (List.mem_cons_of_mem _ hk))]

/-- Rows that are not behind each other are level. -/
theorem cmp_eq_of_le {spec : SortSpec} {a b : Json} (hab : (spec.cmp a b != .gt) = true)
    (hba : (spec.cmp b a != .gt) = true) : spec.cmp a b = .eq := by
  rw [show spec.cmp b a = (spec.cmp a b).swap from cmpBy_swap _ _ _] at hba
  cases hcmp : spec.cmp a b with
  | eq => rfl
  | lt => simp [hcmp] at hba
  | gt => simp [hcmp] at hab

/-- Rows that are strictly in order are the sort of any arrangement of them. -/
theorem sort_of_perm {spec : SortSpec} {rows sorted : List Json} (hperm : sorted.Perm rows)
    (h : sorted.Pairwise fun a b => spec.cmp a b = .lt) : spec.sort rows = sorted := by
  have happart : sorted.Pairwise fun a b => spec.cmp a b ≠ .eq ∧ spec.cmp b a ≠ .eq := by
    refine h.imp fun {a b} hlt => ?_
    rw [show spec.cmp b a = (spec.cmp a b).swap from cmpBy_swap _ _ _, hlt]
    exact ⟨Ordering.noConfusion, Ordering.noConfusion⟩
  have hmem : ∀ {row : Json}, row ∈ spec.sort rows → row ∈ sorted := fun hrow =>
    hperm.mem_iff.mpr ((perm_sort spec rows).mem_iff.mp hrow)
  refine List.Perm.eq_of_pairwise (fun a b ha hb hab hba => ?_) (pairwise_sort spec rows)
    (h.imp fun hlt => by rw [hlt]; rfl) ((perm_sort spec rows).trans hperm.symm)
  by_contra hne
  have : Std.Symm fun a b => spec.cmp a b ≠ .eq ∧ spec.cmp b a ≠ .eq := ⟨fun _ _ => And.symm⟩
  exact (happart.forall (hmem ha) hb hne).1 (cmp_eq_of_le hab hba)

/-- Rows are level if they are level at each sort key. -/
theorem cmpBy_eq_eq_iff {keys : List (String × Direction)} {a b : Json} : cmpBy keys a b = .eq
    ↔ ∀ key ∈ keys, (Document.getOrNull key.1 a).cmp (Document.getOrNull key.1 b) = .eq := by
  induction keys with
  | nil => exact ⟨fun _ _ hkey => absurd hkey List.not_mem_nil, fun _ => rfl⟩
  | cons key keys ih =>
      obtain ⟨field, direction⟩ := key
      rw [cmpBy, Ordering.then_eq_eq, ih, List.forall_mem_cons]
      cases direction with
      | ascending => rfl
      | descending => rw [Direction.orient, Ordering.swap_eq_eq]

end SortSpec

end RunTable
