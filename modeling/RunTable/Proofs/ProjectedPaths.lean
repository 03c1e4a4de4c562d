import RunTable.Proofs.StrippedFields

/-!
# What a projection does at every path

A projection is told its paths in any order, some of them twice and some above others. It works
through the topmost of them one after the other, and each step rewrites the row that the next one
meets. At a place that is listed, or lies below a listed one, the topmost path over it decides; at a
place apart from all that is listed, no step does anything. Only the places above a listed path
change in part.

Keeping and dropping are not mirror images. What is kept is written into objects, so a path that
reads an item of an array is kept as well, as a member. What is dropped is taken out of objects, and
a path through an array stays as it was.
-/

namespace RunTable

theorem Document.NoArrayAbove.mono {doc : Json} {p q : List String} (h : NoArrayAbove q doc)
    (hpre : p <+: q) : NoArrayAbove p doc := by
  intro front hfront hne
  refine h front (hfront.trans hpre) fun heq => hne ?_
  exact hfront.eq_of_length_le (heq ▸ hpre.length_le)

namespace Projection

variable {paths : NameSet} {listed : List String} {path field : String} {doc : Json}
  {q : List String}

/-- Whether a place neither is a listed one nor lies above or below one. -/
def Beside (listed : List String) (field : String) : Prop :=
  ∀ path ∈ listed, Path.Apart (Path.segments path) (Path.segments field)

/-! ## Keeping -/

theorem sparesId_of_not_isAncestor
    (h : ∀ path ∈ paths, Path.isAncestor Field.id path = false) : SparesId paths doc := by
  intro path hpath hbelow
  rw [h path hpath] at hbelow
  cases hbelow

/-- At and below a path of the projection, a kept row reads as the row did. -/
theorem get?_apply_keep_of_mem (hid : SparesId paths doc) (hpath : path ∈ paths)
    (hcovers : Path.covers path field = true) :
    Document.get? field ((keep paths).apply doc) = Document.get? field doc := by
  obtain ⟨root, hroot, habove⟩ := NameSet.exists_root hpath
  obtain ⟨top, htop, hover⟩ := exists_copied (List.mem_cons_of_mem Field.id hroot)
  have hfield : Path.covers top field = true :=
    Path.covers_trans hover (Path.covers_trans habove hcovers)
  exact get?_apply_keep_of_covers hid htop hfield

/-- Apart from all that is copied, a kept row has nothing. -/
theorem getAt?_apply_keep_of_apart (hq : q ≠ [])
    (happart : ∀ path ∈ Field.id :: paths.roots.names, Path.Apart (Path.segments path) q) :
    Document.getAt? q ((keep paths).apply doc) = none := by
  have hempty : Document.getAt? q (.obj []) = none := by
    obtain ⟨s, rest, rfl⟩ := List.exists_cons_of_ne_nil hq
    rfl
  have hwritten : ∀ path ∈ Table.names (copies paths doc), Path.Apart (Path.segments path) q := by
    intro path hpath
    obtain ⟨entry, hentry, rfl⟩ := List.mem_map.mp hpath
    exact happart entry.1 (mem_copies.mp hentry).1
  rw [apply_keep]
  rcases Document.getAt?_setAll_or_none hwritten with hsame | hnone
  · rw [hsame, hempty]
  · exact hnone

/-! ## Dropping -/

/-- At and below a path of the projection, a row that it was dropped from reads nothing, if no array
stood above that path. -/
theorem getAt?_apply_drop_of_mem (h : doc.namesApart = true) (hpath : path ∈ paths)
    (harrays : Document.NoArrayAbove (Path.segments path) doc) (hq : Path.segments path <+: q) :
    Document.getAt? q ((drop paths).apply doc) = none :=
  getAt?_apply_drop_of_prefix h hpath hq fun _ _ hcovers =>
    harrays.mono (Path.covers_iff.mp hcovers)

/-! ## Every path of a row -/

/-- What is left of a row of which some paths are kept: all that is at and below them, nothing that
is beside them, and the identifier. -/
structure Keeps (listed : List String) (doc row : Json) : Prop where
  within : ∀ path ∈ listed, ∀ field, Path.covers path field = true →
    Document.get? field row = Document.get? field doc
  beside : ∀ field, Beside listed field → Path.covers Field.id field = false →
    Document.get? field row = none
  id : Document.get? Field.id row = Document.get? Field.id doc

/-- What is left of a row of which some paths are dropped: nothing at and below a path that no array
stands above, and all that is beside the paths. -/
structure Drops (listed : List String) (doc row : Json) : Prop where
  within : ∀ path ∈ listed, Document.NoArrayAbove (Path.segments path) doc → ∀ field,
    Path.covers path field = true → Document.get? field row = none
  beside : ∀ field, Beside listed field → Document.get? field row = Document.get? field doc

theorem keeps_apply (hid : ∀ path ∈ listed, Path.isAncestor Field.id path = false) (doc : Json) :
    Keeps listed doc ((keep (.ofList listed)).apply doc) := by
  have hspares : SparesId (.ofList listed) doc :=
    sparesId_of_not_isAncestor fun path hpath => hid path (NameSet.mem_ofList.mp hpath)
  have hsegments : Path.segments Field.id = [Field.id] := by decide
  refine ⟨fun path hpath field hcovers => ?_, fun field hbeside hfield => ?_, ?_⟩
  · exact get?_apply_keep_of_mem hspares (NameSet.mem_ofList.mpr hpath) hcovers
  · refine getAt?_apply_keep_of_apart (Path.segments_ne_nil field) fun path hpath => ?_
    rcases List.mem_cons.mp hpath with rfl | hroot
    · exact Path.apart_of_not_covers hsegments hfield
    · exact hbeside path (NameSet.mem_ofList.mp (NameSet.mem_roots.mp hroot).1)
  · exact get?_apply_keep hspares List.mem_cons_self

theorem drops_apply (h : doc.namesApart = true) (listed : List String) :
    Drops listed doc ((drop (.ofList listed)).apply doc) := by
  refine ⟨fun path hpath harrays field hcovers => ?_, fun field hbeside => ?_⟩
  · exact getAt?_apply_drop_of_mem h (NameSet.mem_ofList.mpr hpath) harrays
      (Path.covers_iff.mp hcovers)
  · exact getAt?_apply_drop_of_apart h fun path hpath => hbeside path (NameSet.mem_ofList.mp hpath)

/-- However the paths of a projection overlap, keeping them leaves what they read and dropping them
leaves the rest. -/
theorem apply_at_every_path (h : doc.namesApart = true)
    (hid : ∀ path ∈ listed, Path.isAncestor Field.id path = false) :
    Keeps listed doc ((keep (.ofList listed)).apply doc)
      ∧ Drops listed doc ((drop (.ofList listed)).apply doc) :=
  ⟨keeps_apply hid doc, drops_apply h listed⟩

/-- One path twice, one above it, and one through an array. -/
theorem apply_at_every_path_of_overlaps :
    let doc : Json := .obj [
      ("_id", .str "a"),
      ("config", .obj [("lr", .bool true), ("seed", .null)]),
      ("tags", .arr [.str "x", .str "y"]),
      ("user", .str "u")]
    let listed : List String := ["config.lr", "tags.0", "config", "config.lr"]
    doc.namesApart = true ∧ (∀ path ∈ listed, Path.isAncestor Field.id path = false)
      ∧ Keeps listed doc ((keep (.ofList listed)).apply doc)
      ∧ Drops listed doc ((drop (.ofList listed)).apply doc) := by
  intro doc listed
  have hnames : doc.namesApart = true := by decide
  have hid : ∀ path ∈ listed, Path.isAncestor Field.id path = false := by decide
  exact ⟨hnames, hid, apply_at_every_path hnames hid⟩

end Projection

end RunTable
