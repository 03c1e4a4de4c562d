import RunTable.Pipeline.Run
import RunTable.Plan.Needs
import RunTable.Proofs.Writes

/-!
# What a projected row still holds

A request that selects columns reads a copy of each run, built path by path from the fields that the
request needs. The copy serves instead of the run as far as it is asked for those fields. The
argument has two halves. The plan makes every needed field one of the copied paths or puts it below
one, whatever was forced in which order. And a copied path reads in the copy as it does in the run,
because the copied paths are apart, so that no copy disturbs another.

At the other end fields are stripped again. What matters there is what is not stripped: a removal
below another first segment leaves the identifier alone.
-/

namespace RunTable

/-! ## Paths at or above others -/

namespace Path

variable {p q r : String}

theorem isAncestor_iff : isAncestor p q = true ↔ segments p <+: segments q ∧ p ≠ q := by
  rw [isAncestor, isProperStart_iff]
  constructor
  · rintro ⟨c, cs, hcs⟩
    refine ⟨⟨c :: cs, hcs.symm⟩, ?_⟩
    rintro rfl
    simp at hcs
  · rintro ⟨⟨rest, hrest⟩, hne⟩
    cases rest with
    | nil => exact absurd (segments_injective (by simpa using hrest)) hne
    | cons c cs => exact ⟨c, cs, hrest.symm⟩

theorem covers_iff : covers p q = true ↔ segments p <+: segments q := by
  rw [covers, Bool.or_eq_true, beq_iff_eq, isAncestor_iff]
  constructor
  · rintro (rfl | ⟨hpre, -⟩)
    · exact List.prefix_refl _
    · exact hpre
  · intro hpre
    by_cases h : p = q
    · exact .inl h
    · exact .inr ⟨hpre, h⟩

theorem covers_trans (h : covers p q = true) (h' : covers q r = true) : covers p r = true :=
  covers_iff.mpr ((covers_iff.mp h).trans (covers_iff.mp h'))

theorem isAncestor_trans (h : isAncestor p q = true) (h' : isAncestor q r = true) :
    isAncestor p r = true := by
  obtain ⟨hpre, hne⟩ := isAncestor_iff.mp h
  obtain ⟨hpre', -⟩ := isAncestor_iff.mp h'
  refine isAncestor_iff.mpr ⟨hpre.trans hpre', ?_⟩
  rintro rfl
  exact hne (segments_injective (hpre.eq_of_length_le hpre'.length_le))

theorem apart_of_not_isAncestor (hne : p ≠ q) (h : isAncestor p q = false)
    (h' : isAncestor q p = false) : Apart (segments p) (segments q) := by
  refine ⟨fun hpre => ?_, fun hpre => ?_⟩
  · rw [isAncestor_iff.mpr ⟨hpre, hne⟩] at h
    cases h
  · rw [isAncestor_iff.mpr ⟨hpre, hne.symm⟩] at h'
    cases h'

/-- A path of one segment is apart from all that it does not cover. -/
theorem apart_of_not_covers {s : String} (hp : segments p = [s]) (h : covers p q = false) :
    Apart (segments p) (segments q) := by
  have hnot : ¬ segments p <+: segments q := fun hpre => by
    rw [covers_iff.mpr hpre] at h
    cases h
  refine ⟨hnot, fun hpre => hnot ?_⟩
  have hlen : (segments p).length ≤ (segments q).length := by
    rw [hp]
    exact List.length_pos_of_ne_nil (segments_ne_nil q)
  exact hpre.eq_of_length_le hlen ▸ List.prefix_refl _

theorem prefix_of_head? {s : String} (h : (segments p).head? = some s) : [s] <+: segments p := by
  cases hsegs : segments p with
  | nil => exact absurd hsegs (segments_ne_nil p)
  | cons t rest =>
      rw [hsegs] at h
      cases h
      exact List.cons_prefix_cons.mpr ⟨rfl, List.nil_prefix⟩

/-- A path does not begin with a path of one segment that does not cover it. -/
theorem head?_ne_of_not_covers {s : String} (hp : segments p = [s]) (h : covers p q = false) :
    (segments q).head? ≠ some s := by
  intro hhead
  rw [covers_iff.mpr (hp ▸ prefix_of_head? hhead)] at h
  cases h

end Path

/-! ## Fields that are read -/

theorem NameSet.mem_roots {names : NameSet} {path : String} : path ∈ names.roots
    ↔ path ∈ names ∧ ∀ other ∈ names, Path.isAncestor other path = false := by
  rw [roots, mem_filter, Bool.not_eq_true', List.any_eq_false]
  simp only [Bool.not_eq_true, mem_names]

/-- Each member of a set has a root at or above it. -/
theorem NameSet.exists_root {names : NameSet} {path : String} (h : path ∈ names) :
    ∃ root ∈ names.roots, Path.covers root path = true := by
  induction hn : (Path.segments path).length using Nat.strongRecOn generalizing path with
  | ind n ih =>
      by_cases hroot : path ∈ names.roots
      · exact ⟨path, hroot, Path.covers_iff.mpr (List.prefix_refl _)⟩
      -- a path that is no root lies below a shorter one of the set
      · rw [mem_roots, not_and] at hroot
        obtain ⟨other, hother⟩ := not_forall.mp (hroot h)
        obtain ⟨hmem, habove⟩ := Classical.not_imp.mp hother
        obtain ⟨hpre, hne⟩ := Path.isAncestor_iff.mp (by simpa using habove)
        have hshort : (Path.segments other).length < n := by
          refine hn ▸ Nat.lt_of_le_of_ne hpre.length_le fun hlen => hne ?_
          exact Path.segments_injective (hpre.eq_of_length hlen)
        obtain ⟨root, hmemroot, hcovers⟩ := ih _ hshort hmem rfl
        exact ⟨root, hmemroot, Path.covers_trans hcovers (Path.covers_iff.mpr hpre)⟩

namespace FieldSets

variable {sets : FieldSets} {field path : String} {selection forced : List String}

theorem reads_iff :
    sets.reads field = true ↔ ∃ path ∈ sets.included, Path.covers path field = true := by
  rw [reads, List.any_eq_true]
  rfl

theorem isExplicit_iff : sets.isExplicit = true ↔ ∃ path, path ∈ sets.included := by
  rw [isExplicit, Bool.not_eq_true', NameSet.isEmpty, List.isEmpty_eq_false_iff_exists_mem]
  rfl

theorem mem_included_force (h : path ∈ sets.included) : path ∈ (sets.force field).included := by
  rw [force]
  split
  · exact h
  · exact NameSet.mem_insert.mpr (.inr h)

theorem isExplicit_force (h : sets.isExplicit = true) : (sets.force field).isExplicit = true := by
  obtain ⟨path, hpath⟩ := isExplicit_iff.mp h
  exact isExplicit_iff.mpr ⟨path, mem_included_force hpath⟩

theorem mem_included_foldl_force (h : path ∈ sets.included) :
    path ∈ (forced.foldl force sets).included := by
  induction forced generalizing sets with
  | nil => exact h
  | cons field forced ih => exact ih (mem_included_force h)

theorem reads_force (h : sets.isExplicit = true) (hid : field ≠ Field.id) :
    (sets.force field).reads field = true := by
  rw [force]
  split
  · next hcond =>
      simpa [h, hid] using hcond
  · exact reads_iff.mpr
      ⟨field, NameSet.mem_insert.mpr (.inl rfl), Path.covers_iff.mpr (List.prefix_refl _)⟩

theorem reads_foldl_force (h : sets.isExplicit = true) (hfield : field ∈ forced)
    (hid : field ≠ Field.id) : (forced.foldl force sets).reads field = true := by
  induction forced generalizing sets with
  | nil => cases hfield
  | cons first forced ih =>
      rw [List.foldl_cons]
      rcases List.mem_cons.mp hfield with rfl | hfield
      · obtain ⟨path, hpath, hcovers⟩ := reads_iff.mp (reads_force h hid)
        exact reads_iff.mpr ⟨path, mem_included_foldl_force hpath, hcovers⟩
      · exact ih (isExplicit_force h) hfield

theorem mem_of_mem_included (h : path ∈ (forced.foldl force sets).included) :
    path ∈ sets.included ∨ path ∈ forced := by
  induction forced generalizing sets with
  | nil => exact .inl h
  | cons field forced ih =>
      rcases ih h with hmem | hmem
      · rw [force] at hmem
        split at hmem
        · exact .inl hmem
        · rcases NameSet.mem_insert.mp hmem with rfl | hmem
          · exact .inr List.mem_cons_self
          · exact .inl hmem
      · exact .inr (List.mem_cons_of_mem _ hmem)

/-- Every field that is stripped was forced, and is not the identifier. -/
theorem mem_of_mem_stripped (h : path ∈ (forced.foldl force sets).stripped) :
    path ∈ sets.stripped ∨ path ∈ forced ∧ path ≠ Field.id := by
  induction forced generalizing sets with
  | nil => exact .inl h
  | cons field forced ih =>
      rcases ih h with hmem | hmem
      · rw [force] at hmem
        split at hmem
        · exact .inl hmem
        · next hcond =>
            dsimp only at hmem
            split at hmem
            · exact .inl hmem
            · rcases NameSet.mem_insert.mp hmem with rfl | hmem
              · refine .inr ⟨List.mem_cons_self, fun hid => hcond ?_⟩
                simp [hid]
              · exact .inl hmem
      · exact .inr ⟨List.mem_cons_of_mem _ hmem.1, hmem.2⟩

theorem foldl_force_of_not_explicit (h : sets.isExplicit = false) :
    forced.foldl force sets = sets := by
  induction forced with
  | nil => rfl
  | cons field forced ih =>
      have hforce : sets.force field = sets := by rw [force, h]; rfl
      rw [List.foldl_cons, hforce, ih]

end FieldSets

/-! ## Copies of the fields that are read -/

namespace Projection

variable {paths : NameSet} {path field : String} {run : Json}

/-- The values that are copied from a row. -/
def copies (paths : NameSet) (run : Json) : List (String × Json) :=
  (Field.id :: paths.roots.names).filterMap fun path =>
    (Document.get? path run).map fun value => (path, value)

/-- A copy is made by writing the copied values into an empty object. -/
theorem apply_keep (paths : NameSet) (run : Json) :
    (keep paths).apply run = Document.setAll (copies paths run) (.obj []) := by
  have hfold : ∀ (ps : List String) (target : Json), ps.foldl (copy run) target
      = Document.setAll (ps.filterMap fun path =>
        (Document.get? path run).map fun value => (path, value)) target := by
    intro ps
    induction ps with
    | nil => exact fun _ => rfl
    | cons p ps ih =>
        intro target
        rw [List.foldl_cons, ih, copy]
        cases hget : Document.get? p run with
        | none => rw [List.filterMap_cons_none (by rw [hget]; rfl)]
        | some value => rw [List.filterMap_cons_some (by rw [hget]; rfl)]; rfl
  exact hfold _ _

theorem mem_copies {entry : String × Json} : entry ∈ copies paths run
    ↔ entry.1 ∈ Field.id :: paths.roots.names ∧ Document.get? entry.1 run = some entry.2 := by
  obtain ⟨p, v⟩ := entry
  rw [copies, List.mem_filterMap]
  constructor
  · rintro ⟨q, hq, hvalue⟩
    obtain ⟨v', hget, heq⟩ := Option.map_eq_some_iff.mp hvalue
    cases heq
    exact ⟨hq, hget⟩
  · rintro ⟨hp, hget⟩
    exact ⟨p, hp, by rw [hget]; rfl⟩

/-- The identifier and the paths of a projection that do not lie below it. -/
def copied (paths : NameSet) : List String :=
  Field.id :: paths.roots.names.filter fun path => !Path.isAncestor Field.id path

theorem mem_copied_or (h : path ∈ Field.id :: paths.roots.names) :
    path ∈ copied paths ∨ Path.isAncestor Field.id path = true := by
  rcases List.mem_cons.mp h with rfl | h
  · exact .inl List.mem_cons_self
  · cases hbelow : Path.isAncestor Field.id path with
    | true => exact .inr rfl
    | false =>
        exact .inl (List.mem_cons_of_mem _ (List.mem_filter.mpr ⟨h, by rw [hbelow]; rfl⟩))

/-- What a path of the projection covers is covered by a path that is copied. -/
theorem exists_copied (h : path ∈ Field.id :: paths.roots.names) :
    ∃ top ∈ copied paths, Path.covers top path = true := by
  rcases mem_copied_or h with hmem | hbelow
  · exact ⟨path, hmem, Path.covers_iff.mpr (List.prefix_refl _)⟩
  · exact ⟨Field.id, List.mem_cons_self, Path.covers_iff.mpr (Path.isAncestor_iff.mp hbelow).1⟩

/-- The copied paths are out of each other's way. -/
theorem writable_copied (paths : NameSet) : Document.Writable (copied paths) (.obj []) where
  clear := fun path _ => Document.clear_empty _
  level := by
    have hsegments : Path.segments Field.id = [Field.id] := by decide
    intro p hp q hq hpre
    rcases List.mem_cons.mp hp with rfl | hp
    · rcases List.mem_cons.mp hq with rfl | hq
      · rfl
      · by_contra hne
        have hbelow := (List.mem_filter.mp hq).2
        rw [Path.isAncestor_iff.mpr ⟨hpre, hne⟩] at hbelow
        cases hbelow
    · rcases List.mem_cons.mp hq with rfl | hq
      · refine Path.segments_injective (hpre.eq_of_length_le ?_)
        rw [hsegments]
        exact List.length_pos_of_ne_nil (Path.segments_ne_nil p)
      · by_contra hne
        have habove : Path.isAncestor p q = false :=
          not_isAncestor_roots (NameSet.mem_names.mp (List.mem_filter.mp hp).1)
            (NameSet.mem_names.mp (List.mem_filter.mp hq).1)
        rw [Path.isAncestor_iff.mpr ⟨hpre, hne⟩] at habove
        cases habove

/-- Whether no path of a projection reads anything below the identifier of a row. -/
def SparesId (paths : NameSet) (run : Json) : Prop :=
  ∀ path ∈ paths, Path.isAncestor Field.id path = true → Document.get? path run = none

theorem names_copies (hid : SparesId paths run)
    (h : path ∈ Table.names (copies paths run)) : path ∈ copied paths := by
  obtain ⟨entry, hentry, rfl⟩ := List.mem_map.mp h
  obtain ⟨hmem, hget⟩ := mem_copies.mp hentry
  rcases mem_copied_or hmem with hcopied | hbelow
  · exact hcopied
  · rcases List.mem_cons.mp hmem with heq | hroot
    · rw [heq]
      exact List.mem_cons_self
    · rw [hid entry.1 (NameSet.mem_roots.mp hroot).1 hbelow] at hget
      cases hget

theorem writable_copies (hid : SparesId paths run) :
    Document.Writable (Table.names (copies paths run)) (.obj []) :=
  (writable_copied paths).mono fun _ => names_copies hid

theorem clear_apply_keep (hid : SparesId paths run) (hpath : path ∈ copied paths) :
    Document.Clear (Path.segments path) ((keep paths).apply run) := by
  rw [apply_keep]
  exact ((writable_copied paths).setAll fun _ => names_copies hid).clear path hpath

/-- A copied path reads in the copy as it does in the row. -/
theorem get?_apply_keep (hid : SparesId paths run) (hpath : path ∈ copied paths) :
    Document.get? path ((keep paths).apply run) = Document.get? path run := by
  rw [apply_keep]
  cases hget : Document.get? path run with
  | some value =>
      have hall : path ∈ Field.id :: paths.roots.names := by
        rcases List.mem_cons.mp hpath with rfl | hroot
        · exact List.mem_cons_self
        · exact List.mem_cons_of_mem _ (List.mem_filter.mp hroot).1
      have hmem : (path, value) ∈ copies paths run := mem_copies.mpr ⟨hall, hget⟩
      refine Document.get?_setAll (writable_copies hid) (Table.mem_names hmem) ?_
      rintro entry hentry rfl
      exact Option.some.inj ((mem_copies.mp hentry).2.symm.trans hget)
  | none =>
      -- a path that reads nothing is not copied, so all that is copied lies apart from it
      have happart : ∀ other ∈ Table.names (copies paths run),
          Path.Apart (Path.segments other) (Path.segments path) := by
        intro other hother
        refine (writable_copied paths).apart (names_copies hid hother) hpath ?_
        rintro rfl
        obtain ⟨entry, hentry, rfl⟩ := List.mem_map.mp hother
        rw [(mem_copies.mp hentry).2] at hget
        cases hget
      rw [Document.get?, (Document.sameAt_setAll (writable_copies hid) happart).1]
      cases hsegs : Path.segments path with
      | nil => exact absurd hsegs (Path.segments_ne_nil _)
      | cons s rest => rfl

/-- So does every path below a copied one. -/
theorem get?_apply_keep_of_covers (hid : SparesId paths run)
    (hpath : path ∈ copied paths) (hcovers : Path.covers path field = true) :
    Document.get? field ((keep paths).apply run) = Document.get? field run := by
  obtain ⟨rest, hrest⟩ := Path.covers_iff.mp hcovers
  have hread : Document.get? path ((keep paths).apply run) = Document.get? path run :=
    get?_apply_keep hid hpath
  rw [Document.get?, Document.get?, ← hrest, Document.getAt?_append, Document.getAt?_append]
  exact congrArg (Option.bind · _) hread

/-- And a filter finds there what it finds in the row, if the copied path does not branch. -/
theorem sameAt_apply_keep (hid : SparesId paths run) (hpath : path ∈ copied paths)
    (hcovers : Path.covers path field = true)
    (hdirect : Document.Direct (Path.segments path) run) :
    Document.SameAt (Path.segments field) ((keep paths).apply run) run := by
  obtain ⟨rest, hrest⟩ := Path.covers_iff.mp hcovers
  rw [← hrest]
  exact .append (get?_apply_keep hid hpath) (clear_apply_keep hid hpath).direct hdirect rest

/-- The copy has no member that the row does not have. -/
theorem lookup_apply_keep {name : String} {ms : List (String × Json)}
    (h : ms.lookup name = none) :
    ((keep paths).apply (.obj ms)).members.lookup name = none := by
  rw [apply_keep, Document.lookup_setAll_of_not_mem]
  · rfl
  · intro path hpath hhead
    obtain ⟨entry, hentry, rfl⟩ := List.mem_map.mp hpath
    have hget := (mem_copies.mp hentry).2
    cases hsegs : Path.segments entry.1 with
    | nil => exact absurd hsegs (Path.segments_ne_nil _)
    | cons s rest =>
        rw [hsegs] at hhead
        cases hhead
        rw [Document.get?, hsegs, Document.getAt?_obj, h] at hget
        cases hget

end Projection

/-! ## What is stripped

Every removed path begins where a stripped field begins, and none of these begins with the
identifier. -/

theorem Path.segments_append (p s : String) :
    segments (p ++ "." ++ s) = segments p ++ segments s := by
  have hchars : ∀ cs ds : List Char, Text.splitChars '.' (cs ++ '.' :: ds)
      = Text.splitChars '.' cs ++ Text.splitChars '.' ds := by
    intro cs ds
    induction cs with
    | nil => rfl
    | cons c cs ih =>
        rw [List.cons_append, Text.splitChars, Text.splitChars, ih]
        split
        · rfl
        · cases hcs : Text.splitChars '.' cs with
          | nil => exact absurd hcs (Text.splitChars_ne_nil _ _)
          | cons piece pieces => rfl
  have hlist : (p ++ "." ++ s).toList = p.toList ++ '.' :: s.toList := by
    rw [String.toList_append, String.toList_append, List.append_assoc]
    rfl
  rw [segments, Text.split, hlist, hchars, List.map_append]
  rfl

/-- Each segment of a path is a path of one segment. -/
theorem Path.segments_of_mem {path s : String} (h : s ∈ segments path) : segments s = [s] := by
  obtain ⟨piece, hpiece, rfl⟩ := List.mem_map.mp h
  refine segments_of_undotted ?_
  rw [String.toList_ofList]
  exact Text.not_mem_of_mem_splitChars hpiece

namespace FieldSets

variable {kept : List String}

theorem head?_widen_of_ne_nil {path : String} (hpath : path ≠ "") (rest : List String) :
    (Path.segments (widen kept path rest)).head? = (Path.segments path).head? := by
  induction rest generalizing path with
  | nil => rfl
  | cons s rest ih =>
      have hextend : extend path s = path ++ "." ++ s := by
        rw [extend, if_neg]
        simpa using hpath
      have hne : path ++ "." ++ s ≠ "" := by
        intro hempty
        have := congrArg String.toList hempty
        simp at this
      have hhead : (Path.segments (path ++ "." ++ s)).head? = (Path.segments path).head? := by
        rw [Path.segments_append]
        exact List.head?_append_of_ne_nil _ (Path.segments_ne_nil _)
      rw [widen, hextend]
      split
      · rw [ih hne, hhead]
      · exact hhead

/-- A widened path begins as the path does. -/
theorem head?_widen {path : String} (hsegs : ∀ s ∈ Path.segments path, s ≠ "") :
    (Path.segments (widen kept "" (Path.segments path))).head? = (Path.segments path).head? := by
  cases hpath : Path.segments path with
  | nil => exact absurd hpath (Path.segments_ne_nil _)
  | cons s rest =>
      have hs : s ∈ Path.segments path := by
        rw [hpath]
        exact List.mem_cons_self
      have hextend : extend "" s = s := rfl
      rw [widen, hextend]
      split
      · rw [head?_widen_of_ne_nil (hsegs s hs), Path.segments_of_mem hs]
        rfl
      · rw [Path.segments_of_mem hs]
        rfl

end FieldSets

namespace Document

variable {path name : String} {doc : Json}

/-- A removal stays below its first segment. -/
theorem remove_spares (hdoc : (Table.names doc.members).Nodup)
    (hname : (Path.segments path).head? ≠ some name) :
    (Table.names (remove path doc).members).Nodup
      ∧ (remove path doc).members.lookup name = doc.members.lookup name := by
  rw [remove, remove?]
  cases hsegs : Path.segments path with
  | nil => exact absurd hsegs (Path.segments_ne_nil _)
  | cons s rest =>
      have hne : name ≠ s := by
        rintro rfl
        exact hname (by rw [hsegs]; rfl)
      cases rest with
      | nil =>
          rw [removeAt?]
          cases doc.member? s with
          | none => exact ⟨hdoc, rfl⟩
          | some value =>
              exact ⟨Table.nodup_names_erase hdoc, Table.lookup_erase_of_ne hdoc hne⟩
      | cons t rest =>
          rw [removeAt?]
          · cases hchild : doc.member? s with
            | none => exact ⟨hdoc, rfl⟩
            | some child =>
                dsimp only
                cases removeAt? (t :: rest) child with
                | none => exact ⟨hdoc, rfl⟩
                | some removed =>
                    exact ⟨Table.nodup_names_put hdoc, Table.lookup_put_of_ne hne _ _⟩
          · simp

end Document

/-- A projection that drops paths leaves a member under whose name none of them begins. -/
theorem Projection.lookup_apply_drop {paths : NameSet} {name : String} {doc : Json}
    (hdoc : (Table.names doc.members).Nodup)
    (hpaths : ∀ path ∈ paths, (Path.segments path).head? ≠ some name) :
    ((drop paths).apply doc).members.lookup name = doc.members.lookup name := by
  have hfold : ∀ (ps : List String) (doc : Json), (Table.names doc.members).Nodup →
      (∀ path ∈ ps, (Path.segments path).head? ≠ some name) →
      (ps.foldl (fun rest path => Document.remove path rest) doc).members.lookup name
        = doc.members.lookup name := by
    intro ps
    induction ps with
    | nil => exact fun _ _ _ => rfl
    | cons p ps ih =>
        intro doc hdoc hps
        have hremove := Document.remove_spares hdoc (hps p List.mem_cons_self)
        rw [List.foldl_cons, ih _ hremove.1 fun q hq => hps q (List.mem_cons_of_mem _ hq),
          hremove.2]
  exact hfold _ doc hdoc fun path hpath => hpaths path (NameSet.mem_roots.mp hpath).1

end RunTable
