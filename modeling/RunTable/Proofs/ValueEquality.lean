import Mathlib.Data.List.Perm.Subperm
import RunTable.Proofs.NamesApart
import RunTable.Proofs.ValueOrder

/-!
# Equality of values

Numbers are equal across their kinds, and objects whatever the order of their members. The test for
it is not symmetric in how it is written: it goes through the members of the left object and looks
each of them up on the right. It comes out symmetric because names are apart, so that as many
members with all of them found leave none over. An object that lists a name twice does not even
equal itself.

So on values whose names are apart, equal values form classes. For arrays and objects this is seen
from what their equality says of their items and of what is read under each name.

The order of values goes through two objects side by side, and so does not take them for level if
they list their members in different orders. That is all that sets the two apart: level values are
equal, and equal values are level where no object has two members to list.
-/

namespace RunTable

namespace Json

variable {a b c : Json} {items items' : List Json}
  {members members' : List (String × Json)}

/-- What holds of scalars, and of arrays and objects whose parts it holds of, holds of values. -/
@[elab_as_elim]
theorem induction_on_parts {motive : Json → Prop} (value : Json)
    (scalar : ∀ value, value.isScalar = true → motive value)
    (arr : ∀ items, (∀ item ∈ items, motive item) → motive (.arr items))
    (obj : ∀ members, (∀ member ∈ members, motive member.2) → motive (.obj members)) :
    motive value := by
  match value with
  | .arr items => exact arr items fun item hitem => induction_on_parts item scalar arr obj
  | .obj members =>
      exact obj members fun member hmember => induction_on_parts member.2 scalar arr obj
  | .null | .bool _ | .num _ | .str _ => exact scalar _ rfl
termination_by sizeOf value
decreasing_by
  · have hitemLt := List.sizeOf_lt_of_mem hitem
    rw [Json.arr.sizeOf_spec]
    omega
  · have hmemberLt := List.sizeOf_lt_of_mem hmember
    have hvalueLt : sizeOf member.2 < sizeOf member := by
      obtain ⟨name, value⟩ := member
      show sizeOf value < sizeOf (name, value)
      rw [Prod.mk.sizeOf_spec]
      omega
    rw [Json.obj.sizeOf_spec]
    omega

/-! ## Equality through the parts -/

/-- Arrays are equal if they are as long, and have equal items in each place. -/
theorem equal_arr_iff : (arr items).equal (arr items') = true
    ↔ items.length = items'.length
      ∧ ∀ (i : Nat) (x y : Json), items[i]? = some x → items'[i]? = some y →
        x.equal y = true := by
  rw [equal]
  induction items generalizing items' with
  | nil => cases items' <;> simp [equalItems]
  | cons item items ih =>
      cases items' with
      | nil => simp [equalItems]
      | cons item' items' =>
          rw [equalItems, Bool.and_eq_true, ih, List.length_cons, List.length_cons,
            Nat.add_right_cancel_iff]
          constructor
          · rintro ⟨hfirst, hlength, hrest⟩
            refine ⟨hlength, fun i x y hx hy => ?_⟩
            cases i with
            | zero =>
                cases hx
                cases hy
                exact hfirst
            | succ i => exact hrest i x y hx hy
          · rintro ⟨hlength, hall⟩
            exact ⟨hall 0 item item' rfl rfl, hlength, fun i => hall (i + 1)⟩

theorem equalMembers_iff : equalMembers members members' = true
    ↔ ∀ member ∈ members,
      ∃ other, members'.lookup member.1 = some other ∧ member.2.equal other = true := by
  induction members with
  | nil => simp [equalMembers]
  | cons member members ih =>
      obtain ⟨name, value⟩ := member
      rw [equalMembers, Bool.and_eq_true, ih, List.forall_mem_cons]
      refine and_congr_left fun _ => ?_
      cases members'.lookup name <;> simp

/-- Objects are equal if they have the same names, and equal values under each of them. -/
theorem equal_obj_iff (hnodup : (Table.names members).Nodup)
    (hnodup' : (Table.names members').Nodup) : (obj members).equal (obj members') = true
    ↔ (∀ name, (members.lookup name).isSome = (members'.lookup name).isSome)
      ∧ ∀ name x y, members.lookup name = some x → members'.lookup name = some y →
        x.equal y = true := by
  rw [equal, Bool.and_eq_true, beq_iff_eq, equalMembers_iff]
  constructor
  · rintro ⟨hlength, hfound⟩
    -- as many names with all of them among the others leave none over
    have hsubset : Table.names members ⊆ Table.names members' := by
      intro name hname
      obtain ⟨member, hmember, rfl⟩ := List.mem_map.mp hname
      obtain ⟨other, hother, -⟩ := hfound member hmember
      exact Table.mem_names (Table.mem_of_lookup hother)
    have hperm : (Table.names members).Perm (Table.names members') :=
      (hnodup.subperm hsubset).perm_of_length_le (by simp [Table.names, hlength])
    refine ⟨fun name => ?_, fun name x y hx hy => ?_⟩
    · rw [Bool.eq_iff_iff, Table.lookup_isSome_iff, Table.lookup_isSome_iff, hperm.mem_iff]
    · obtain ⟨other, hother, hequal⟩ := hfound (name, x) (Table.mem_of_lookup hx)
      cases hy.symm.trans hother
      exact hequal
  · rintro ⟨hnames, hvalues⟩
    have hperm : (Table.names members).Perm (Table.names members') := by
      refine (List.perm_ext_iff_of_nodup hnodup hnodup').mpr fun name => ?_
      rw [← Table.lookup_isSome_iff, ← Table.lookup_isSome_iff, hnames]
    refine ⟨by simpa [Table.names] using hperm.length_eq, fun member hmember => ?_⟩
    have hlookup := (Table.lookup_eq_some_iff_mem hnodup).mpr hmember
    obtain ⟨other, hother⟩ : ∃ other, members'.lookup member.1 = some other := by
      rw [← Option.isSome_iff_exists, ← hnames, hlookup]
      rfl
    exact ⟨other, hother, hvalues _ _ _ hlookup hother⟩

/-! ## Equal values are of one kind -/

theorem isScalar_of_equal (ha : a.isScalar = true) (h : a.equal b = true) : b.isScalar = true := by
  cases b with
  | arr items => cases a <;> simp [equal, isScalar] at ha h
  | obj members => cases a <;> simp [equal, isScalar] at ha h
  | _ => rfl

theorem exists_arr_of_equal (h : (arr items).equal b = true) : ∃ items', b = arr items' := by
  cases b with
  | arr items' => exact ⟨items', rfl⟩
  | _ => simp [equal] at h

theorem exists_obj_of_equal (h : (obj members).equal b = true) : ∃ members', b = obj members' := by
  cases b with
  | obj members' => exact ⟨members', rfl⟩
  | _ => simp [equal] at h

/-! ## Classes of equal values -/

theorem equal_self (h : a.namesApart = true) : a.equal a = true := by
  induction a using induction_on_parts with
  | scalar a ha => exact (equal_iff_cmp_eq ha).mpr Std.ReflCmp.compare_self
  | arr items ih =>
      rw [namesApart_arr] at h
      refine equal_arr_iff.mpr ⟨rfl, fun i x y hx hy => ?_⟩
      cases hx.symm.trans hy
      have hmem := List.mem_of_getElem? hx
      exact ih x hmem (h x hmem)
  | obj members ih =>
      obtain ⟨hnodup, h⟩ := namesApart_obj.mp h
      refine (equal_obj_iff hnodup hnodup).mpr ⟨fun _ => rfl, fun name x y hx hy => ?_⟩
      cases hx.symm.trans hy
      have hmem := Table.mem_of_lookup hx
      exact ih _ hmem (h _ hmem)

theorem equal_symm (ha : a.namesApart = true) (hb : b.namesApart = true)
    (h : a.equal b = true) : b.equal a = true := by
  induction a using induction_on_parts generalizing b with
  | scalar a hscalar =>
      rw [equal_iff_cmp_eq (isScalar_of_equal hscalar h)]
      exact Std.OrientedCmp.eq_comm.mp ((equal_iff_cmp_eq hscalar).mp h)
  | arr items ih =>
      obtain ⟨items', rfl⟩ := exists_arr_of_equal h
      obtain ⟨hlength, hitems⟩ := equal_arr_iff.mp h
      rw [namesApart_arr] at ha hb
      refine equal_arr_iff.mpr ⟨hlength.symm, fun i y x hy hx => ?_⟩
      have hmem := List.mem_of_getElem? hx
      exact ih x hmem (ha x hmem) (hb y (List.mem_of_getElem? hy)) (hitems i x y hx hy)
  | obj members ih =>
      obtain ⟨members', rfl⟩ := exists_obj_of_equal h
      obtain ⟨hnodup, ha⟩ := namesApart_obj.mp ha
      obtain ⟨hnodup', hb⟩ := namesApart_obj.mp hb
      obtain ⟨hnames, hvalues⟩ := (equal_obj_iff hnodup hnodup').mp h
      refine (equal_obj_iff hnodup' hnodup).mpr
        ⟨fun name => (hnames name).symm, fun name y x hy hx => ?_⟩
      have hmem := Table.mem_of_lookup hx
      exact ih _ hmem (ha _ hmem) (hb _ (Table.mem_of_lookup hy)) (hvalues name x y hx hy)

theorem equal_trans (ha : a.namesApart = true) (hb : b.namesApart = true)
    (hc : c.namesApart = true) (hab : a.equal b = true) (hbc : b.equal c = true) :
    a.equal c = true := by
  induction a using induction_on_parts generalizing b c with
  | scalar a hscalar =>
      rw [equal_iff_cmp_eq (isScalar_of_equal hscalar hab)] at hbc
      rw [equal_iff_cmp_eq hscalar] at hab ⊢
      exact Std.TransCmp.eq_trans hab hbc
  | arr items ih =>
      obtain ⟨items', rfl⟩ := exists_arr_of_equal hab
      obtain ⟨items'', rfl⟩ := exists_arr_of_equal hbc
      obtain ⟨hlength, hitems⟩ := equal_arr_iff.mp hab
      obtain ⟨hlength', hitems'⟩ := equal_arr_iff.mp hbc
      rw [namesApart_arr] at ha hb hc
      refine equal_arr_iff.mpr ⟨hlength.trans hlength', fun i x z hx hz => ?_⟩
      obtain ⟨hi, -⟩ := List.getElem?_eq_some_iff.mp hx
      obtain ⟨y, hy⟩ : ∃ y, items'[i]? = some y := ⟨_, List.getElem?_eq_getElem (hlength ▸ hi)⟩
      have hmem := List.mem_of_getElem? hx
      exact ih x hmem (ha x hmem) (hb y (List.mem_of_getElem? hy)) (hc z (List.mem_of_getElem? hz))
        (hitems i x y hx hy) (hitems' i y z hy hz)
  | obj members ih =>
      obtain ⟨members', rfl⟩ := exists_obj_of_equal hab
      obtain ⟨members'', rfl⟩ := exists_obj_of_equal hbc
      obtain ⟨hnodup, ha⟩ := namesApart_obj.mp ha
      obtain ⟨hnodup', hb⟩ := namesApart_obj.mp hb
      obtain ⟨hnodup'', hc⟩ := namesApart_obj.mp hc
      obtain ⟨hnames, hvalues⟩ := (equal_obj_iff hnodup hnodup').mp hab
      obtain ⟨hnames', hvalues'⟩ := (equal_obj_iff hnodup' hnodup'').mp hbc
      refine (equal_obj_iff hnodup hnodup'').mpr
        ⟨fun name => (hnames name).trans (hnames' name), fun name x z hx hz => ?_⟩
      obtain ⟨y, hy⟩ : ∃ y, members'.lookup name = some y := by
        rw [← Option.isSome_iff_exists, ← hnames, hx]
        rfl
      have hmem := Table.mem_of_lookup hx
      exact ih _ hmem (ha _ hmem) (hb _ (Table.mem_of_lookup hy)) (hc _ (Table.mem_of_lookup hz))
        (hvalues name x y hx hy) (hvalues' name y z hy hz)

/-- Equal values equal the same values. -/
theorem equal_congr_left (ha : a.namesApart = true) (hb : b.namesApart = true)
    (hc : c.namesApart = true) (h : a.equal b = true) : a.equal c = b.equal c :=
  Bool.eq_iff_iff.mpr ⟨equal_trans hb ha hc (equal_symm ha hb h), equal_trans ha hb hc h⟩

theorem equal_congr_right (ha : a.namesApart = true) (hb : b.namesApart = true)
    (hc : c.namesApart = true) (h : b.equal c = true) : a.equal b = a.equal c :=
  Bool.eq_iff_iff.mpr ⟨fun hab => equal_trans ha hb hc hab h,
    fun hac => equal_trans ha hc hb hac (equal_symm hb hc h)⟩

/-! ## Members in another order -/

/-- Whether two values differ in nothing but the order in which objects, at any depth, list their
members. -/
inductive Reordered : Json → Json → Prop
  | refl (value : Json) : Reordered value value
  | members {listed other : List (String × Json)} (h : listed.Perm other) :
      Reordered (obj listed) (obj other)
  | item {value other : Json} (before after : List Json) (h : Reordered value other) :
      Reordered (arr (before ++ value :: after)) (arr (before ++ other :: after))
  | member {value other : Json} (before after : List (String × Json)) (name : String)
      (h : Reordered value other) :
      Reordered (obj (before ++ (name, value) :: after)) (obj (before ++ (name, other) :: after))
  | trans {value between other : Json} (h : Reordered value between)
      (h' : Reordered between other) : Reordered value other

theorem namesApart_of_reordered (h : a.Reordered b) (ha : a.namesApart = true) :
    b.namesApart = true := by
  induction h with
  | refl value => exact ha
  | members hperm =>
      obtain ⟨hnodup, hmembers⟩ := namesApart_obj.mp ha
      exact namesApart_obj.mpr ⟨(hperm.map Prod.fst).nodup_iff.mp hnodup,
        fun member hmember => hmembers member (hperm.mem_iff.mpr hmember)⟩
  | item before after h ih =>
      rw [namesApart_arr, List.forall_mem_append, List.forall_mem_cons] at ha ⊢
      exact ⟨ha.1, ih ha.2.1, ha.2.2⟩
  | member before after name h ih =>
      rw [namesApart_obj, List.forall_mem_append, List.forall_mem_cons] at ha ⊢
      refine ⟨?_, ha.2.1, ih ha.2.2.1, ha.2.2.2⟩
      simpa [Table.names] using ha.1
  | trans h h' ih ih' => exact ih' (ih ha)

/-- An equal item in place of another leaves the array equal. -/
theorem equal_replaceItem {before after : List Json}
    (h : (arr (before ++ a :: after)).namesApart = true) (hab : a.equal b = true) :
    (arr (before ++ a :: after)).equal (arr (before ++ b :: after)) = true := by
  rw [namesApart_arr] at h
  refine equal_arr_iff.mpr ⟨by simp, fun i x y hx hy => ?_⟩
  by_cases hi : i = before.length
  · subst hi
    rw [List.getElem?_append_right (Nat.le_refl _), Nat.sub_self] at hx hy
    cases hx
    cases hy
    exact hab
  · have hsame : (before ++ a :: after)[i]? = (before ++ b :: after)[i]? := by
      rw [List.getElem?_append, List.getElem?_append]
      split
      · rfl
      · rw [List.getElem?_cons, List.getElem?_cons, if_neg (by omega), if_neg (by omega)]
    cases hx.symm.trans (hsame.trans hy)
    exact equal_self (h x (List.mem_of_getElem? hx))

/-- An equal value in place of another leaves the object equal. -/
theorem equal_replaceMember {before after : List (String × Json)} {name : String}
    (h : (obj (before ++ (name, a) :: after)).namesApart = true) (hab : a.equal b = true) :
    (obj (before ++ (name, a) :: after)).equal (obj (before ++ (name, b) :: after)) = true := by
  obtain ⟨hnodup, hmembers⟩ := namesApart_obj.mp h
  have hnames : Table.names (before ++ (name, b) :: after)
      = Table.names (before ++ (name, a) :: after) := by
    simp [Table.names]
  have hnodup' : (Table.names (before ++ (name, b) :: after)).Nodup := hnames ▸ hnodup
  refine (equal_obj_iff hnodup hnodup').mpr ⟨fun other => ?_, fun other x y hx hy => ?_⟩
  · rw [Bool.eq_iff_iff, Table.lookup_isSome_iff, Table.lookup_isSome_iff, hnames]
  · have hx := Table.mem_of_lookup hx
    have hy := Table.mem_of_lookup hy
    by_cases hother : other = name
    · subst hother
      obtain rfl : a = x :=
        Table.eq_of_mem hnodup hx (List.mem_append_right _ List.mem_cons_self) rfl
      obtain rfl : b = y :=
        Table.eq_of_mem hnodup' hy (List.mem_append_right _ List.mem_cons_self) rfl
      exact hab
    · have hmem : (other, y) ∈ before ++ (name, a) :: after := by
        simp only [List.mem_append, List.mem_cons, Prod.mk.injEq, hother, false_and,
          false_or] at hy ⊢
        exact hy
      obtain rfl : y = x := Table.eq_of_mem hnodup hx hmem rfl
      exact equal_self (hmembers _ hx)

theorem equal_of_reordered (h : a.Reordered b) (ha : a.namesApart = true) :
    a.equal b = true := by
  induction h with
  | refl value => exact equal_self ha
  | @members listed other hperm =>
      obtain ⟨hnodup, hmembers⟩ := namesApart_obj.mp ha
      have hlookup := Table.lookup_perm hnodup hperm
      refine (equal_obj_iff hnodup ((hperm.map Prod.fst).nodup_iff.mp hnodup)).mpr
        ⟨fun name => by rw [hlookup], fun name x y hx hy => ?_⟩
      cases hx.symm.trans ((hlookup name).trans hy)
      exact equal_self (hmembers _ (Table.mem_of_lookup hx))
  | item before after h ih =>
      have hitems := namesApart_arr.mp ha
      exact equal_replaceItem ha (ih (hitems _ (List.mem_append_right _ List.mem_cons_self)))
  | member before after name h ih =>
      obtain ⟨-, hmembers⟩ := namesApart_obj.mp ha
      exact equal_replaceMember ha (ih (hmembers _ (List.mem_append_right _ List.mem_cons_self)))
  | trans h h' ih ih' =>
      have hbetween := namesApart_of_reordered h ha
      exact equal_trans ha hbetween (namesApart_of_reordered h' hbetween) (ih ha) (ih' hbetween)

/-! ## Equality and the order -/

theorem kindRank_eq_of_cmp_eq (h : a.cmp b = .eq) : a.kindRank = b.kindRank := by
  by_contra hne
  rw [cmp_of_kindRank_ne hne] at h
  exact hne (Nat.compare_eq_eq.mp h)

/-- Arrays are level if they are level item by item. -/
theorem cmpItems_eq_iff : cmpItems items items' = .eq
    ↔ List.Forall₂ (fun x y => x.cmp y = .eq) items items' := by
  induction items generalizing items' with
  | nil => cases items' <;> simp [cmpItems]
  | cons item items ih =>
      cases items' with
      | nil => simp [cmpItems]
      | cons item' items' => rw [cmpItems, Ordering.then_eq_eq, ih, List.forall₂_cons]

/-- Objects are level if they list the same names in the same order, with level values. -/
theorem cmpMembers_eq_iff : cmpMembers members members' = .eq
    ↔ List.Forall₂ (fun x y => x.1 = y.1 ∧ x.2.cmp y.2 = .eq) members members' := by
  induction members generalizing members' with
  | nil => cases members' <;> simp [cmpMembers]
  | cons member members ih =>
      obtain ⟨name, value⟩ := member
      cases members' with
      | nil => simp [cmpMembers]
      | cons member' members' =>
          obtain ⟨name', value'⟩ := member'
          rw [cmpMembers, Ordering.then_eq_eq, Ordering.then_eq_eq, ih, List.forall₂_cons,
            Std.LawfulEqOrd.compare_eq_iff_eq]

/-- Level values are equal. -/
theorem equal_of_cmp_eq (ha : a.namesApart = true) (h : a.cmp b = .eq) : a.equal b = true := by
  induction a using induction_on_parts generalizing b with
  | scalar a hscalar => exact (equal_iff_cmp_eq hscalar).mpr h
  | arr items ih =>
      cases b with
      | arr items' =>
          have hitems := cmpItems_eq_iff.mp h
          rw [namesApart_arr] at ha
          refine equal_arr_iff.mpr ⟨hitems.length_eq, fun i x y hx hy => ?_⟩
          obtain ⟨y', hy', hlevel⟩ := Outcome.getElem?_of_forall₂ hitems hx
          cases hy.symm.trans hy'
          have hmem := List.mem_of_getElem? hx
          exact ih x hmem (ha x hmem) hlevel
      | _ => cases kindRank_eq_of_cmp_eq h
  | obj members ih =>
      cases b with
      | obj members' =>
          have hlevel := cmpMembers_eq_iff.mp h
          have hnames : Table.names members = Table.names members' :=
            Table.names_of_forall₂ (hlevel.imp fun _ _ hmember => hmember.1)
          obtain ⟨hnodup, ha⟩ := namesApart_obj.mp ha
          refine (equal_obj_iff hnodup (hnames ▸ hnodup)).mpr
            ⟨fun name => ?_, fun name x y hx hy => ?_⟩
          · rw [Bool.eq_iff_iff, Table.lookup_isSome_iff, Table.lookup_isSome_iff, hnames]
          · obtain ⟨y', hy', hvalues⟩ :=
              Table.lookup_of_forall₂ (R := fun x y => x.cmp y = .eq) hlevel hx
            cases hy.symm.trans hy'
            have hmem := Table.mem_of_lookup hx
            exact ih _ hmem (ha _ hmem) hvalues
      | _ => cases kindRank_eq_of_cmp_eq h

mutual

/-- Whether no object in a value has two or more members. -/
def isNarrow : Json → Bool
  | arr items => isNarrowItems items
  | obj members => decide (members.length ≤ 1) && isNarrowMembers members
  | _ => true
termination_by structural value => value

def isNarrowItems : List Json → Bool
  | [] => true
  | item :: items => isNarrow item && isNarrowItems items
termination_by structural items => items

def isNarrowMembers : List (String × Json) → Bool
  | [] => true
  | (_, value) :: members => isNarrow value && isNarrowMembers members
termination_by structural members => members

end

mutual

/-- Equal values are level if no object has an order of members to differ in. -/
theorem cmp_eq_of_equal_narrow (a b : Json) (ha : a.isNarrow = true) (h : a.equal b = true) :
    a.cmp b = .eq := by
  match a with
  | .null | .bool _ | .num _ | .str _ => exact (equal_iff_cmp_eq rfl).mp h
  | .arr items =>
      obtain ⟨items', rfl⟩ := exists_arr_of_equal h
      exact cmpItems_eq_of_equal_narrow items items' ha h
  | .obj members =>
      obtain ⟨members', rfl⟩ := exists_obj_of_equal h
      rw [isNarrow, Bool.and_eq_true, decide_eq_true_eq] at ha
      rw [equal, Bool.and_eq_true, beq_iff_eq] at h
      match members, members' with
      | [], [] => rfl
      | [(name, value)], [(name', value')] =>
          obtain ⟨other, hother, hvalues⟩ := equalMembers_iff.mp h.2 _ List.mem_cons_self
          obtain ⟨rfl, rfl⟩ : name = name' ∧ value' = other := by
            simpa [eq_comm] using Table.mem_of_lookup hother
          rw [isNarrowMembers, Bool.and_eq_true] at ha
          rw [cmp, cmpMembers, Std.ReflOrd.compare_self,
            cmp_eq_of_equal_narrow value value' ha.2.1 hvalues]
          rfl
termination_by structural a

theorem cmpItems_eq_of_equal_narrow (items items' : List Json) (h : isNarrowItems items = true)
    (hequal : equalItems items items' = true) : cmpItems items items' = .eq := by
  match items, items' with
  | [], [] => rfl
  | item :: items, item' :: items' =>
      rw [isNarrowItems, Bool.and_eq_true] at h
      rw [equalItems, Bool.and_eq_true] at hequal
      rw [cmpItems, cmp_eq_of_equal_narrow item item' h.1 hequal.1,
        cmpItems_eq_of_equal_narrow items items' h.2 hequal.2]
      rfl
termination_by structural items

end

/-- On values whose names are apart, equality is an equivalence that does not see the order of
members. It is coarser than being level, and the two agree where no object has two members that
could change places; it is enough to know this of one side. -/
theorem equal_equivalence (ha : a.namesApart = true) (hb : b.namesApart = true)
    (hc : c.namesApart = true) :
    a.equal a = true
      ∧ (a.equal b = true → b.equal a = true)
      ∧ (a.equal b = true → b.equal c = true → a.equal c = true)
      ∧ (a.Reordered b → a.equal b = true)
      ∧ (a.cmp b = .eq → a.equal b = true)
      ∧ (a.isNarrow = true → a.equal b = true → a.cmp b = .eq) :=
  ⟨equal_self ha, equal_symm ha hb, equal_trans ha hb hc, fun h => equal_of_reordered h ha,
    equal_of_cmp_eq ha, cmp_eq_of_equal_narrow a b⟩

/-- Members that change places outside of an array and in it, and an integer in place of its double;
then the same exchange of numbers where every object has one member. -/
theorem equal_equivalence_of_three :
    let one : Json := .double { bits := 0x3FF0000000000000 }
    let a : Json := .obj [("x", .int 1), ("y", .arr [.obj [("p", .null), ("q", .int 2)]])]
    let b : Json := .obj [("y", .arr [.obj [("q", .int 2), ("p", .null)]]), ("x", .int 1)]
    let c : Json := .obj [("x", one), ("y", .arr [.obj [("p", .null), ("q", .int 2)]])]
    let narrow : Json := .arr [.single "x" (.int 1)]
    let other : Json := .arr [.single "x" one]
    a.Reordered b ∧ a.cmp c = .eq ∧ b.equal c = true ∧ a.cmp b ≠ .eq
      ∧ narrow.isNarrow = true ∧ narrow.cmp other = .eq := by
  intro one a b c narrow other
  have hreordered : a.Reordered b :=
    .trans (.members (.swap _ _ _)) (.member [] [("x", .int 1)] "y"
      (.item [] [] (.members (.swap _ _ _))))
  have hlevel : a.cmp c = .eq := by decide
  have hnarrow : narrow.isNarrow = true := by decide
  obtain ⟨-, hsymm, -, hab, -, -⟩ :=
    equal_equivalence (show a.namesApart = true by decide) (show b.namesApart = true by decide)
      (show c.namesApart = true by decide)
  obtain ⟨-, -, -, -, hac, -⟩ :=
    equal_equivalence (show a.namesApart = true by decide) (show c.namesApart = true by decide)
      (show b.namesApart = true by decide)
  obtain ⟨-, -, htrans, -, -, -⟩ :=
    equal_equivalence (show b.namesApart = true by decide) (show a.namesApart = true by decide)
      (show c.namesApart = true by decide)
  obtain ⟨-, -, -, -, -, hdown⟩ :=
    equal_equivalence (show narrow.namesApart = true by decide)
      (show other.namesApart = true by decide) (show c.namesApart = true by decide)
  exact ⟨hreordered, hlevel, htrans (hsymm (hab hreordered)) (hac hlevel), by decide, hnarrow,
    hdown hnarrow (by decide)⟩

end Json

end RunTable
