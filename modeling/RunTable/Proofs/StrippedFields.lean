import RunTable.Proofs.NamesApart

/-!
# What is stripped and what stays

Fields that were read for a filter or a sort are removed again before rows are shown. Two things
could go wrong there: a removal could take a selected field with it, and it could miss its field.

The plan rules out the first. Whatever is forced in whichever order, a field that is stripped stays
apart from all that is selected, and the path that is removed in its place is the longest way up to
where something is still shown. The second is a question of the rows. A removal enters objects only,
so it finds its field unless an array stands above it, and since removals make no arrays, those that
came before are of no concern.
-/

namespace RunTable

/-! ## Removing -/

namespace Document

variable {doc : Json} {p q : List String} {path : String}

/-- A removal takes away what is at its place and below, leaves what is apart from it, and above it
turns objects into objects. -/
theorem getAt?_of_removeAt? {removed : Json × Json} (h : doc.namesApart = true)
    (hremoved : removeAt? p doc = some removed) (q : List String) :
    (p <+: q ∧ getAt? q removed.2 = none)
      ∨ (Path.Apart p q ∧ getAt? q removed.2 = getAt? q doc)
      ∨ q <+: p ∧ q ≠ p ∧ ∃ ms ns, getAt? q doc = some (.obj ms)
        ∧ getAt? q removed.2 = some (.obj ns) := by
  induction p generalizing q doc removed with
  | nil => cases hremoved
  | cons s rest ih =>
      obtain ⟨child, hchild, hafter⟩ := removeAt?_cons_eq_some hremoved
      obtain ⟨ms, rfl⟩ : ∃ ms, doc = .obj ms := by
        cases doc with
        | obj ms => exact ⟨ms, rfl⟩
        | _ => cases hchild
      have hobj : ∃ ns, removed.2 = .obj ns := by
        rcases hafter with ⟨-, -, heq⟩ | ⟨inner, -, -, heq⟩ <;> exact ⟨_, heq⟩
      cases q with
      | nil =>
          obtain ⟨ns, hns⟩ := hobj
          exact .inr (.inr ⟨List.nil_prefix, by simp, ms, ns, rfl, congrArg some hns⟩)
      | cons t q =>
          have hnodup := (Json.namesApart_obj.mp h).1
          by_cases ht : t = s
          · subst ht
            rcases hafter with ⟨rfl, -, heq⟩ | ⟨inner, hinner, -, heq⟩
            · refine .inl ⟨List.cons_prefix_cons.mpr ⟨rfl, List.nil_prefix⟩, ?_⟩
              rw [heq, getAt?_obj]
              exact congrArg (Option.bind · _) (Table.lookup_erase_self hnodup)
            · have hbefore : getAt? (t :: q) (.obj ms) = getAt? q child := by
                rw [getAt?_obj, show ms.lookup t = some child from hchild, Option.bind_some]
              have hbelow : getAt? (t :: q) removed.2 = getAt? q inner.2 := by
                rw [heq, getAt?_obj]
                exact congrArg (Option.bind · _) (Table.lookup_put_self _ _ _)
              rw [hbefore, hbelow]
              rcases ih (Json.namesApart_member? h hchild) hinner q with hunder | happart | hover
              · exact .inl ⟨List.cons_prefix_cons.mpr ⟨rfl, hunder.1⟩, hunder.2⟩
              · exact .inr (.inl ⟨happart.1.cons t, happart.2⟩)
              · obtain ⟨hpre, hne, hobjects⟩ := hover
                exact .inr (.inr
                  ⟨List.cons_prefix_cons.mpr ⟨rfl, hpre⟩, by simpa using hne, hobjects⟩)
          · refine .inr (.inl ⟨Path.apart_of_head_ne (Ne.symm ht) rest q, ?_⟩)
            rcases hafter with ⟨-, -, heq⟩ | ⟨inner, -, -, heq⟩
            · rw [heq, getAt?_obj, getAt?_obj]
              exact congrArg (Option.bind · _) (Table.lookup_erase_of_ne hnodup ht)
            · rw [heq, getAt?_obj, getAt?_obj]
              exact congrArg (Option.bind · _) (Table.lookup_put_of_ne ht _ _)

/-- Whether no array stands above the end of a path. -/
def NoArrayAbove (p : List String) (doc : Json) : Prop :=
  ∀ front, front <+: p → front ≠ p → ∀ items, getAt? front doc ≠ some (.arr items)

theorem noArrayAbove_single (s : String) (ms : List (String × Json)) :
    NoArrayAbove [s] (.obj ms) := by
  intro front hfront hne items hread
  rcases List.prefix_cons_iff.mp hfront with rfl | ⟨rest, rfl, hrest⟩
  · cases hread
  · rw [List.prefix_nil.mp hrest] at hne
    exact hne rfl

/-- A removal that finds nothing leaves nothing, unless it was kept off by an array. -/
theorem getAt?_of_removeAt?_eq_none (hp : p ≠ []) (h : removeAt? p doc = none)
    (harrays : NoArrayAbove p doc) : getAt? p doc = none := by
  induction p generalizing doc with
  | nil => exact absurd rfl hp
  | cons s rest ih =>
      cases doc with
      | obj ms =>
          rw [getAt?_obj]
          cases hchild : ms.lookup s with
          | none => rfl
          | some child =>
              have hmember : (Json.obj ms).member? s = some child := hchild
              cases rest with
              | nil =>
                  rw [removeAt?, hmember] at h
                  cases h
              | cons t rest =>
                  rw [removeAt?.eq_3 _ _ _ (by simp), hmember] at h
                  refine ih (by simp) (Option.map_eq_none_iff.mp h) fun front hfront hne items => ?_
                  have hlonger := harrays (s :: front) (List.cons_prefix_cons.mpr ⟨rfl, hfront⟩)
                    (by simpa using hne) items
                  rw [getAt?_obj, hchild] at hlonger
                  exact hlonger
      | arr items => exact absurd rfl (harrays [] List.nil_prefix (by simp) items)
      | _ => rfl

theorem remove_cases (path : String) (doc : Json) :
    (removeAt? (Path.segments path) doc = none ∧ remove path doc = doc)
      ∨ ∃ removed, removeAt? (Path.segments path) doc = some removed
        ∧ remove path doc = removed.2 := by
  rw [remove, remove?]
  cases hremoved : removeAt? (Path.segments path) doc with
  | none => exact .inl ⟨rfl, rfl⟩
  | some removed => exact .inr ⟨removed, rfl, rfl⟩

theorem getAt?_remove_of_apart (h : doc.namesApart = true)
    (hq : Path.Apart (Path.segments path) q) : getAt? q (remove path doc) = getAt? q doc := by
  rcases remove_cases path doc with ⟨-, heq⟩ | ⟨removed, hremoved, heq⟩
  · rw [heq]
  · rw [heq]
    rcases getAt?_of_removeAt? h hremoved q with hunder | hbeside | hover
    · exact absurd hunder.1 hq.1
    · exact hbeside.2
    · exact absurd hover.1 hq.2

/-- A removal makes no values: what is read after it was read before, objects as objects. -/
theorem getAt?_remove_eq_some {value : Json} (h : doc.namesApart = true)
    (hread : getAt? q (remove path doc) = some value) :
    getAt? q doc = some value
      ∨ ∃ ms ns, getAt? q doc = some (.obj ms) ∧ value = .obj ns := by
  rcases remove_cases path doc with ⟨-, heq⟩ | ⟨removed, hremoved, heq⟩
  · exact .inl (heq ▸ hread)
  · rw [heq] at hread
    rcases getAt?_of_removeAt? h hremoved q with ⟨-, hnone⟩ | ⟨-, hsame⟩ | ⟨-, -, ms, ns, hms, hns⟩
    · rw [hnone] at hread
      cases hread
    · exact .inl (hsame ▸ hread)
    · exact .inr ⟨ms, ns, hms, Option.some.inj (hread.symm.trans hns)⟩

theorem NoArrayAbove.remove (harrays : NoArrayAbove q doc) (h : doc.namesApart = true)
    (path : String) : NoArrayAbove q (remove path doc) := by
  intro front hfront hne items hread
  rcases getAt?_remove_eq_some h hread with hsome | ⟨ms, ns, -, hobj⟩
  · exact harrays front hfront hne items hsome
  · cases hobj

/-- What is removed is gone, unless an array stood above it. -/
theorem getAt?_remove_self (h : doc.namesApart = true)
    (harrays : NoArrayAbove (Path.segments path) doc) :
    getAt? (Path.segments path) (remove path doc) = none := by
  rcases remove_cases path doc with ⟨hnone, heq⟩ | ⟨removed, hremoved, heq⟩
  · rw [heq]
    exact getAt?_of_removeAt?_eq_none (Path.segments_ne_nil path) hnone harrays
  · rw [heq]
    rcases getAt?_of_removeAt? h hremoved (Path.segments path) with hunder | hbeside | hover
    · exact hunder.2
    · exact absurd (List.prefix_refl _) hbeside.1.1
    · exact absurd rfl hover.2.1

/-- Removes the members at some paths, one after the other. -/
def removeAll (paths : List String) (doc : Json) : Json :=
  paths.foldl (fun rest path => remove path rest) doc

variable {paths : List String}

theorem getAt?_removeAll_of_apart (h : doc.namesApart = true)
    (hq : ∀ path ∈ paths, Path.Apart (Path.segments path) q) :
    getAt? q (removeAll paths doc) = getAt? q doc := by
  induction paths generalizing doc with
  | nil => rfl
  | cons path paths ih =>
      have hrest := ih (namesApart_remove h path) fun other hother =>
        hq other (List.mem_cons_of_mem _ hother)
      exact hrest.trans (getAt?_remove_of_apart h (hq path List.mem_cons_self))

theorem getAt?_removeAll_eq_some {value : Json} (h : doc.namesApart = true)
    (hread : getAt? q (removeAll paths doc) = some value) :
    getAt? q doc = some value ∨ ∃ ms ns, getAt? q doc = some (.obj ms) ∧ value = .obj ns := by
  induction paths generalizing doc with
  | nil => exact .inl hread
  | cons path paths ih =>
      rcases ih (namesApart_remove h path) hread with hsame | ⟨ms, ns, hms, rfl⟩
      · exact getAt?_remove_eq_some h hsame
      · rcases getAt?_remove_eq_some h hms with hsame | ⟨ms', -, hms', -⟩
        · exact .inr ⟨ms, ns, hsame, rfl⟩
        · exact .inr ⟨ms', ns, hms', rfl⟩

theorem getAt?_removeAll_eq_none (h : doc.namesApart = true) (hnone : getAt? q doc = none) :
    getAt? q (removeAll paths doc) = none := by
  cases hread : getAt? q (removeAll paths doc) with
  | none => rfl
  | some value =>
      rcases getAt?_removeAll_eq_some h hread with hsome | ⟨ms, -, hsome, -⟩ <;>
        rw [hnone] at hsome <;> cases hsome

theorem getAt?_removeAll_of_mem (h : doc.namesApart = true) (hpath : path ∈ paths)
    (harrays : NoArrayAbove (Path.segments path) doc) :
    getAt? (Path.segments path) (removeAll paths doc) = none := by
  induction paths generalizing doc with
  | nil => cases hpath
  | cons first paths ih =>
      rcases List.mem_cons.mp hpath with rfl | hpath
      · have hgone : getAt? (Path.segments path) (removeAll paths (remove path doc)) = none :=
          getAt?_removeAll_eq_none (namesApart_remove h path) (getAt?_remove_self h harrays)
        exact hgone
      · exact ih (namesApart_remove h first) hpath (harrays.remove h first)

end Document

/-! ## Projections that drop -/

namespace Projection

variable {paths : NameSet} {path : String} {doc value : Json} {q : List String}

theorem apply_drop (paths : NameSet) (doc : Json) :
    (drop paths).apply doc = Document.removeAll paths.roots.names doc := rfl

/-- Dropped paths take nothing with them that is apart from them. -/
theorem getAt?_apply_drop_of_apart (h : doc.namesApart = true)
    (hq : ∀ path ∈ paths, Path.Apart (Path.segments path) q) :
    Document.getAt? q ((drop paths).apply doc) = Document.getAt? q doc :=
  Document.getAt?_removeAll_of_apart h fun path hpath => hq path (NameSet.mem_roots.mp hpath).1

/-- What is read of what is left was there before, objects as objects. -/
theorem getAt?_apply_drop_eq_some (h : doc.namesApart = true)
    (hread : Document.getAt? q ((drop paths).apply doc) = some value) :
    Document.getAt? q doc = some value
      ∨ ∃ ms ns, Document.getAt? q doc = some (.obj ms) ∧ value = .obj ns :=
  Document.getAt?_removeAll_eq_some h hread

/-- A dropped path and all below it is gone, unless an array stood above a dropped path. -/
theorem getAt?_apply_drop_of_prefix (h : doc.namesApart = true) (hpath : path ∈ paths)
    (hq : Path.segments path <+: q)
    (harrays : ∀ root ∈ paths, Path.covers root path = true →
      Document.NoArrayAbove (Path.segments root) doc) :
    Document.getAt? q ((drop paths).apply doc) = none := by
  obtain ⟨root, hroot, hcovers⟩ := NameSet.exists_root hpath
  obtain ⟨rest, rfl⟩ := (Path.covers_iff.mp hcovers).trans hq
  have hgone := harrays root (NameSet.mem_roots.mp hroot).1 hcovers
  rw [apply_drop, Document.getAt?_append, Document.getAt?_removeAll_of_mem h hroot hgone]
  rfl

end Projection

/-! ## The plan -/

namespace FieldSets

variable {sets : FieldSets} {field path : String} {selection forced kept : List String}

/-- What holds of the fields of a selection, whatever else is forced: all that is selected is read
and shown, what is stripped lies apart from it, and what else is shown lies above it. -/
structure Shows (selection : List String) (sets : FieldSets) : Prop where
  selected : ∀ field ∈ selection, field ∈ sets.included
  stripped : ∀ field ∈ sets.stripped, field ∈ sets.included ∧ ∀ shown ∈ selection,
    Path.Apart (Path.segments field) (Path.segments shown)
  kept : ∀ field ∈ sets.kept, field ∈ selection ∨ ∃ shown ∈ selection,
    Path.isAncestor field shown = true

theorem mem_kept {path : String} :
    path ∈ sets.kept ↔ path ∈ sets.included ∧ path ∉ sets.stripped := by
  rw [FieldSets.kept, NameSet.mem_filter, Bool.not_eq_true', ← Bool.not_eq_true,
    List.contains_iff_mem]
  rfl

theorem shows_ofSelection (selection : List String) : Shows selection (.ofSelection selection) where
  selected := fun _ hpath => NameSet.mem_ofList.mpr hpath
  stripped := fun path hpath => absurd hpath (NameSet.not_mem_empty path)
  kept := fun _ hpath => .inl (NameSet.mem_ofList.mp (mem_kept.mp hpath).1)

theorem Shows.selected_kept (h : Shows selection sets) (hpath : path ∈ selection) :
    path ∈ sets.kept := by
  refine mem_kept.mpr ⟨h.selected path hpath, fun hstripped => ?_⟩
  exact ((h.stripped path hstripped).2 path hpath).1 (List.prefix_refl _)

/-- What forcing a field does: nothing, or the field is read, and stripped again unless a kept field
lies below it. -/
theorem force_cases (sets : FieldSets) (field : String) :
    sets.force field = sets
      ∨ sets.reads field = false
        ∧ ((∃ path ∈ sets.kept, Path.isAncestor field path = true)
            ∧ sets.force field = { sets with included := sets.included.insert field }
          ∨ (∀ path ∈ sets.kept, Path.isAncestor field path = false)
            ∧ sets.force field = {
                included := sets.included.insert field
                stripped := sets.stripped.insert field }) := by
  rw [force]
  split
  · exact .inl rfl
  · next hcond =>
      have hreads : sets.reads field = false := by
        simp only [Bool.or_eq_true, not_or, Bool.not_eq_true] at hcond
        exact hcond.2
      refine .inr ⟨hreads, ?_⟩
      cases hholds : sets.kept.names.any (Path.isAncestor field) with
      | true => exact .inl ⟨List.any_eq_true.mp hholds, rfl⟩
      | false =>
          refine .inr ⟨fun path hpath => ?_, rfl⟩
          simpa using List.any_eq_false.mp hholds path hpath

/-- Forcing a field keeps the plan: it is stripped only if nothing selected lies above it, for then
it would be read already, and nothing selected lies below it, for that is kept. -/
theorem Shows.force (h : Shows selection sets) (field : String) :
    Shows selection (sets.force field) := by
  obtain heq | ⟨hreads, ⟨⟨shown, hshown, hbelow⟩, heq⟩ | ⟨hnone, heq⟩⟩ := force_cases sets field
  · rw [heq]
    exact h
  -- a kept field lies below the forced one: it is selected, or a selected one lies below it
  · rw [heq]
    refine ⟨fun path hpath => NameSet.mem_insert.mpr (.inr (h.selected path hpath)),
      fun path hpath =>
        (h.stripped path hpath).imp (fun hmem => NameSet.mem_insert.mpr (.inr hmem)) id,
      fun path hpath => ?_⟩
    obtain ⟨hmem, hnot⟩ := mem_kept.mp hpath
    rcases NameSet.mem_insert.mp hmem with rfl | hmem
    · right
      rcases h.kept shown hshown with hselected | ⟨other, hother, habove⟩
      · exact ⟨shown, hselected, hbelow⟩
      · exact ⟨other, hother, Path.isAncestor_trans hbelow habove⟩
    · exact h.kept path (mem_kept.mpr ⟨hmem, hnot⟩)
  · rw [heq]
    refine ⟨fun path hpath => NameSet.mem_insert.mpr (.inr (h.selected path hpath)),
      fun path hpath => ?_, fun path hpath => ?_⟩
    · rcases NameSet.mem_insert.mp hpath with rfl | hpath
      · refine ⟨NameSet.mem_insert.mpr (.inl rfl), fun shown hshown => ?_⟩
        have habove : Path.covers shown path = false := by
          rw [← Bool.not_eq_true]
          intro hcovers
          rw [reads_iff.mpr ⟨shown, h.selected shown hshown, hcovers⟩] at hreads
          cases hreads
        rw [Path.covers, Bool.or_eq_false_iff, beq_eq_false_iff_ne] at habove
        exact Path.apart_of_not_isAncestor habove.1.symm (hnone shown (h.selected_kept hshown))
          habove.2
      · exact (h.stripped path hpath).imp (fun hmem => NameSet.mem_insert.mpr (.inr hmem)) id
    · obtain ⟨hmem, hnot⟩ := mem_kept.mp hpath
      have hold : path ∈ sets.included := (NameSet.mem_insert.mp hmem).resolve_left fun heq =>
        hnot (NameSet.mem_insert.mpr (.inl heq))
      exact h.kept path (mem_kept.mpr ⟨hold, fun hstripped =>
        hnot (NameSet.mem_insert.mpr (.inr hstripped))⟩)

theorem Shows.foldl_force (h : Shows selection sets) (forced : List String) :
    Shows selection (forced.foldl FieldSets.force sets) := by
  induction forced generalizing sets with
  | nil => exact h
  | cons field forced ih => exact ih (h.force field)

/-- A forced field is read through a field that was forced no later, or through one that was there
before. -/
theorem exists_reader {before after : List String} (h : sets.isExplicit = true)
    (hfield : field ∈ before) (hid : field ≠ Field.id) :
    ∃ path ∈ ((before ++ after).foldl FieldSets.force sets).included,
      Path.covers path field = true ∧ (path ∈ sets.included ∨ path ∈ before) := by
  obtain ⟨path, hpath, hcovers⟩ := reads_iff.mp (reads_foldl_force h hfield hid)
  refine ⟨path, ?_, hcovers, mem_of_mem_included hpath⟩
  rw [List.foldl_append]
  exact mem_included_foldl_force hpath

/-! ## Widened paths

A stripped field goes with all that surrounds it, up to where something is shown. -/

/-- A path that may be widened by further segments: it is while it holds a kept field. -/
def widenFrom (kept : List String) (path : String) (rest : List String) : String :=
  if kept.any (Path.covers path) then widen kept path rest else path

theorem widenFrom_nil (kept : List String) (path : String) : widenFrom kept path [] = path :=
  ite_self path

/-- A path that was widened from a beginning along a whole path: each shorter one holds a kept
field, and it holds none unless it is the whole path. -/
structure Widened (kept beginning all : List String) (path : String) : Prop where
  start : beginning <+: Path.segments path
  within : Path.segments path <+: all
  free : Path.segments path = all ∨ ∀ shown ∈ kept, Path.covers path shown = false
  holds : ∀ front, beginning <+: front → front <+: Path.segments path →
    front ≠ Path.segments path → ∃ shown ∈ kept, front <+: Path.segments shown

theorem widened_self {rest : List String}
    (h : rest = [] ∨ ∀ shown ∈ kept, Path.covers path shown = false) :
    Widened kept (Path.segments path) (Path.segments path ++ rest) path where
  start := List.prefix_refl _
  within := List.prefix_append _ _
  free := h.imp (fun hnil => by rw [hnil, List.append_nil]) id
  holds := fun _ hstart hfront hne => absurd (hfront.eq_of_length_le hstart.length_le) hne

theorem widened_widenFrom {rest : List String} (hpath : path ≠ "")
    (hrest : ∀ s ∈ rest, Path.segments s = [s]) :
    Widened kept (Path.segments path) (Path.segments path ++ rest) (widenFrom kept path rest) := by
  induction rest generalizing path with
  | nil =>
      rw [widenFrom_nil]
      exact widened_self (.inl rfl)
  | cons s rest ih =>
      rw [widenFrom]
      split
      · next hholds =>
          obtain ⟨shown, hshown, hcovers⟩ := List.any_eq_true.mp hholds
          have hextend : extend path s = path ++ "." ++ s := if_neg (by simpa using hpath)
          have hsegs : Path.segments (extend path s) = Path.segments path ++ [s] := by
            rw [hextend, Path.segments_append, hrest s List.mem_cons_self]
          have hne : extend path s ≠ "" := fun hempty => by
            have hlist := congrArg String.toList (hextend.symm.trans hempty)
            simp at hlist
          have hwide := ih hne fun t ht => hrest t (List.mem_cons_of_mem _ ht)
          rw [hsegs, List.append_assoc] at hwide
          refine ⟨(List.prefix_append _ _).trans hwide.start, hwide.within, hwide.free,
            fun front hstart hfront hne' => ?_⟩
          -- what is shorter than the next path is the path itself, which holds the kept field
          by_cases hnext : Path.segments path ++ [s] <+: front
          · exact hwide.holds front hnext hfront hne'
          · have hshort : front <+: Path.segments path ++ [s] :=
              (List.prefix_or_prefix_of_prefix hfront hwide.start).resolve_right hnext
            rcases List.prefix_concat_iff.mp hshort with rfl | hfront
            · exact absurd (List.prefix_refl _) hnext
            · rw [hfront.eq_of_length_le hstart.length_le]
              exact ⟨shown, hshown, Path.covers_iff.mp hcovers⟩
      · next hholds =>
          refine widened_self (.inr fun shown hshown => ?_)
          simpa using List.any_eq_false.mp (by simpa using hholds) shown hshown

/-- A field is widened from its first segment, unless this is empty and a kept field begins with an
empty segment as well. -/
theorem widened_widen {s : String} {rest : List String} (hfield : Path.segments field = s :: rest)
    (hs : s = "" → ∀ shown ∈ kept, Path.covers s shown = false) :
    Widened kept [s] (Path.segments field) (widen kept "" (Path.segments field)) := by
  have hmem : ∀ t ∈ s :: rest, t ∈ Path.segments field := fun t ht => hfield ▸ ht
  have hself : Path.segments s = [s] := Path.segments_of_mem (hmem s List.mem_cons_self)
  have hwide : Widened kept (Path.segments s) (Path.segments s ++ rest)
      (widenFrom kept s rest) := by
    by_cases hempty : s = ""
    · have hnone : kept.any (Path.covers s) = false :=
        List.any_eq_false.mpr fun shown hshown => by simp [hs hempty shown hshown]
      rw [widenFrom, hnone]
      exact widened_self (.inr (hs hempty))
    · exact widened_widenFrom hempty fun t ht =>
        Path.segments_of_mem (hmem t (List.mem_cons_of_mem _ ht))
  rw [hself] at hwide
  rw [hfield]
  exact hwide

/-- A path is widened to one that begins with its first segment that is not empty, unless it comes
no further than its empty segments. -/
theorem head?_widen_or {kept segs : List String} (hsegs : ∀ s ∈ segs, Path.segments s = [s]) :
    widen kept "" segs = ""
      ∨ (Path.segments (widen kept "" segs)).head? = segs.find? (· != "") := by
  induction segs with
  | nil => exact .inl rfl
  | cons s segs ih =>
      have ih := ih fun t ht => hsegs t (List.mem_cons_of_mem _ ht)
      have hextend : extend "" s = s := rfl
      rw [widen, hextend]
      by_cases hs : s = ""
      · subst hs
        split
        · simpa using ih
        · exact .inl rfl
      · right
        have hself := hsegs s List.mem_cons_self
        rw [List.find?_cons_of_pos (by simpa using hs)]
        split
        · rw [head?_widen_of_ne_nil hs, hself]
          rfl
        · rw [hself]
          rfl

/-! ## Stripped paths -/

/-- What is removed in place of a stripped field: a path above it or its own, which holds nothing
that is shown, while all above it holds something that is selected. -/
theorem Shows.of_mem_stripPaths (h : Shows selection sets)
    (hsegs : ∀ field ∈ sets.stripped, ∀ s ∈ Path.segments field, s ≠ "")
    (hpath : path ∈ sets.stripPaths) :
    (∃ field ∈ sets.stripped, Path.covers path field = true)
      ∧ (∀ shown ∈ selection, Path.Apart (Path.segments path) (Path.segments shown))
      ∧ ∀ front, front ≠ [] → front <+: Path.segments path → front ≠ Path.segments path →
        ∃ shown ∈ selection, front <+: Path.segments shown := by
  rw [stripPaths, NameSet.mem_ofList] at hpath
  obtain ⟨field, hfield, rfl⟩ := List.mem_map.mp hpath
  obtain ⟨s, rest, hcons⟩ : ∃ s rest, Path.segments field = s :: rest :=
    List.exists_cons_of_ne_nil (Path.segments_ne_nil field)
  have hwide : Widened sets.kept.names [s] (Path.segments field)
      (widen sets.kept.names "" (Path.segments field)) :=
    widened_widen hcons fun hs => absurd hs (hsegs field hfield s (hcons ▸ List.mem_cons_self))
  obtain ⟨-, hfieldApart⟩ := h.stripped field hfield
  -- a kept field is selected or above a selected one, so what holds the one holds the other
  have hbelow : ∀ front, (∃ shown ∈ sets.kept.names, front <+: Path.segments shown) →
      ∃ shown ∈ selection, front <+: Path.segments shown := by
    rintro front ⟨shown, hshown, hpre⟩
    rcases h.kept shown hshown with hselected | ⟨other, hother, habove⟩
    · exact ⟨shown, hselected, hpre⟩
    · exact ⟨other, hother, hpre.trans (Path.isAncestor_iff.mp habove).1⟩
  refine ⟨⟨field, hfield, Path.covers_iff.mpr hwide.within⟩, fun shown hshown => ⟨fun hpre => ?_,
    fun hpre => (hfieldApart shown hshown).2 (hpre.trans hwide.within)⟩,
    fun front hne hpre hshort => ?_⟩
  · rcases hwide.free with hall | hfree
    · exact (hfieldApart shown hshown).1 (hall ▸ hpre)
    · have hcovers := hfree shown (h.selected_kept hshown)
      rw [Path.covers_iff.mpr hpre] at hcovers
      cases hcovers
  · refine hbelow front (hwide.holds front ?_ hpre hshort)
    -- a beginning of the field begins with its first segment
    cases front with
    | nil => exact absurd rfl hne
    | cons t front =>
        have hhead := hpre.trans hwide.within
        rw [hcons] at hhead
        rw [(List.cons_prefix_cons.mp hhead).1]
        exact List.cons_prefix_cons.mpr ⟨rfl, List.nil_prefix⟩

/-- A place above a stripped field that holds nothing selected is removed. -/
theorem Shows.exists_stripPath (h : Shows selection sets)
    (hsegs : ∀ field ∈ sets.stripped, ∀ s ∈ Path.segments field, s ≠ "")
    (hfield : field ∈ sets.stripped) (hpath : Path.covers path field = true)
    (happart : ∀ shown ∈ selection, ¬ Path.segments path <+: Path.segments shown) :
    ∃ stripped ∈ sets.stripPaths, Path.covers stripped path = true := by
  have hmem : widen sets.kept.names "" (Path.segments field) ∈ sets.stripPaths :=
    NameSet.mem_ofList.mpr (List.mem_map_of_mem hfield)
  obtain ⟨s, rest, hcons⟩ : ∃ s rest, Path.segments field = s :: rest :=
    List.exists_cons_of_ne_nil (Path.segments_ne_nil field)
  have hwide : Widened sets.kept.names [s] (Path.segments field)
      (widen sets.kept.names "" (Path.segments field)) :=
    widened_widen hcons fun hs => absurd hs (hsegs field hfield s (hcons ▸ List.mem_cons_self))
  obtain ⟨-, -, hfronts⟩ := h.of_mem_stripPaths hsegs hmem
  refine ⟨_, hmem, Path.covers_iff.mpr ?_⟩
  by_contra hnot
  have hpre :=
    (List.prefix_or_prefix_of_prefix (Path.covers_iff.mp hpath) hwide.within).resolve_right hnot
  obtain ⟨shown, hshown, hholds⟩ := hfronts _ (Path.segments_ne_nil path) hpre
    fun heq => hnot (heq ▸ List.prefix_refl _)
  exact happart shown hshown hholds

end FieldSets

end RunTable
