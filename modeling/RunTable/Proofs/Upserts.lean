import RunTable.Proofs.DistinctValues
import RunTable.Proofs.ValueEquality

/-!
# A collection that is only written under identifiers

A write under an identifier puts the document in the place of the first one that bears an equal
identifier, or behind the others if there is none. An identifier may be any value, and the document
may bear another one than it is written under, as long as the two are equal. What is found is
decided by equality alone, and since equality is symmetric and transitive, the documents stand for
classes of equal identifiers.

Write by write, such a collection lists one document for each class, in the order in which the
classes were first met, and it is the one that was written last.
-/

namespace RunTable

open MetricJoin

/-- A document and the identifier that it is written under. -/
structure Upsert where
  id : Json
  doc : Json

/-- Writes documents under identifiers, one after the other. -/
def Store.upsertAll (store : Store) (collection : String) (upserts : List Upsert) : Store :=
  upserts.foldl (fun store upsert => store.upsert collection upsert.id upsert.doc) store

namespace Upsert

/-- Whether the document bears the identifier, up to equality, and neither lists a name twice. -/
structure IsFitting (upsert : Upsert) : Prop where
  id_apart : upsert.id.namesApart = true
  doc_apart : upsert.doc.namesApart = true
  bears : Store.identifies upsert.id upsert.doc = true

/-- The different identifiers of some writes, of equal ones the first. -/
def ids (upserts : List Upsert) : List Json := (upserts.map Upsert.id).foldl Store.addNew []

/-- The document that was written last under an identifier. -/
def last? (upserts : List Upsert) (id : Json) : Option Json :=
  ((upserts.filter fun upsert => upsert.id.equal id).getLast?).map Upsert.doc

/-- The position of the first write under an identifier. -/
def firstIndex (upserts : List Upsert) (id : Json) : Nat :=
  upserts.findIdx fun upsert => upsert.id.equal id

/-- Whether documents are the last ones of some writes: no two have equal identifiers, there are as
many as there are different identifiers, each identifier finds the document that was written last
under it and no other, and they stand in the order of the first writes under their identifiers. -/
structure AreLast (upserts : List Upsert) (docs : List Json) : Prop where
  apart : docs.Pairwise fun a b => (idOf a).equal (idOf b) = false ∧ (idOf b).equal (idOf a) = false
  length_eq : docs.length = (ids upserts).length
  last : ∀ upsert ∈ upserts, ∃ doc, last? upserts upsert.id = some doc
    ∧ docs.filter (Store.identifies upsert.id) = [doc]
  ordered : docs.Pairwise fun a b => firstIndex upserts (idOf a) < firstIndex upserts (idOf b)

variable {upserts : List Upsert} {upsert : Upsert} {a b id : Json}

namespace IsFitting

theorem get?_doc (h : upsert.IsFitting) :
    Document.get? Field.id upsert.doc = some (idOf upsert.doc) := by
  have hbears := h.bears
  rw [Store.identifies] at hbears
  rw [idOf, Document.getOrNull]
  cases hid : Document.get? Field.id upsert.doc with
  | none =>
      rw [hid] at hbears
      cases hbears
  | some value => rfl

theorem idOf_apart (h : upsert.IsFitting) : (idOf upsert.doc).namesApart = true :=
  Document.namesApart_getOrNull h.doc_apart _

theorem idOf_equal (h : upsert.IsFitting) : (idOf upsert.doc).equal upsert.id = true := by
  have hbears := h.bears
  rwa [Store.identifies, h.get?_doc] at hbears

/-- A written document is found under what equals the identifier that it was written under. -/
theorem identifies_doc (h : upsert.IsFitting) (hid : id.namesApart = true) :
    Store.identifies id upsert.doc = upsert.id.equal id := by
  rw [Store.identifies, h.get?_doc]
  exact Json.equal_congr_left h.idOf_apart h.id_apart hid h.idOf_equal

end IsFitting

/-! ## What a run of writes is known by

Each of the three readings of a list of writes follows the writes one at a time, and none of them
can tell equal identifiers from each other. -/

theorem ids_append (upserts : List Upsert) (upsert : Upsert) :
    ids (upserts ++ [upsert]) = Store.addNew (ids upserts) upsert.id := by
  rw [ids, List.map_append, List.foldl_append]
  rfl

theorem last?_append (upserts : List Upsert) (upsert : Upsert) (id : Json) :
    last? (upserts ++ [upsert]) id
      = if upsert.id.equal id then some upsert.doc else last? upserts id := by
  rw [last?, List.filter_append, List.filter_cons, List.filter_nil]
  split
  · rw [List.getLast?_append]
    rfl
  · rw [List.append_nil, last?]

theorem firstIndex_append (upserts : List Upsert) (upsert : Upsert) (id : Json) :
    firstIndex (upserts ++ [upsert]) id
      = if firstIndex upserts id < upserts.length then firstIndex upserts id
        else firstIndex [upsert] id + upserts.length := List.findIdx_append

theorem firstIndex_lt_length : firstIndex upserts id < upserts.length
    ↔ ∃ upsert ∈ upserts, upsert.id.equal id = true := List.findIdx_lt_length

theorem pairwise_ids (upserts : List Upsert) :
    (ids upserts).Pairwise fun a b => a.equal b = false :=
  (Store.foldl_addNew _ .nil).1

/-- An identifier that stands for its class is the identifier of a write. -/
theorem exists_of_mem_ids (h : id ∈ ids upserts) : ∃ upsert ∈ upserts, upsert.id = id := by
  obtain ⟨-, -, hsound, -⟩ := Store.foldl_addNew (upserts.map Upsert.id) List.Pairwise.nil
  exact List.mem_map.mp ((hsound id h).resolve_left List.not_mem_nil)

section

variable (hfit : ∀ upsert ∈ upserts, upsert.IsFitting)

include hfit

theorem last?_congr (ha : a.namesApart = true) (hb : b.namesApart = true)
    (hab : a.equal b = true) : last? upserts a = last? upserts b := by
  rw [last?, last?]
  congr 2
  refine List.filter_congr fun upsert hupsert => ?_
  exact Json.equal_congr_right (hfit upsert hupsert).id_apart ha hb hab

theorem firstIndex_congr (ha : a.namesApart = true) (hb : b.namesApart = true)
    (hab : a.equal b = true) : firstIndex upserts a = firstIndex upserts b := by
  induction upserts with
  | nil => rfl
  | cons upsert upserts ih =>
      rw [firstIndex, firstIndex, List.findIdx_cons, List.findIdx_cons,
        Json.equal_congr_right (hfit upsert List.mem_cons_self).id_apart ha hb hab]
      exact congrArg (cond _ 0 <| · + 1) (ih fun other hother =>
        hfit other (List.mem_cons_of_mem _ hother))

theorem apart_of_mem_ids (h : id ∈ ids upserts) : id.namesApart = true := by
  obtain ⟨upsert, hupsert, rfl⟩ := exists_of_mem_ids h
  exact (hfit upsert hupsert).id_apart

theorem exists_equal_ids (h : upsert ∈ upserts) :
    ∃ id ∈ ids upserts, id.equal upsert.id = true := by
  obtain ⟨-, -, -, hcomplete⟩ := Store.foldl_addNew (upserts.map Upsert.id) List.Pairwise.nil
  obtain ⟨id, hid, rfl | hequal⟩ := hcomplete upsert.id (List.mem_map_of_mem h)
  · exact ⟨_, hid, Json.equal_self (hfit upsert h).id_apart⟩
  · exact ⟨id, hid, hequal⟩

/-- Under an identifier that was written, the last document is one of those written under it. -/
theorem exists_last (h : id ∈ ids upserts) :
    ∃ upsert ∈ upserts, upsert.id.equal id = true ∧ last? upserts id = some upsert.doc := by
  obtain ⟨first, hfirst, rfl⟩ := exists_of_mem_ids h
  have hmem : first ∈ upserts.filter fun upsert => upsert.id.equal first.id :=
    List.mem_filter.mpr ⟨hfirst, Json.equal_self (hfit first hfirst).id_apart⟩
  cases hlast : (upserts.filter fun upsert => upsert.id.equal first.id).getLast? with
  | none => exact absurd (List.getLast?_eq_none_iff.mp hlast) (List.ne_nil_of_mem hmem)
  | some last =>
      obtain ⟨hupsert, hequal⟩ := List.mem_filter.mp (List.mem_of_getLast? hlast)
      exact ⟨last, hupsert, hequal, by rw [last?, hlast]; rfl⟩

end

/-! ## One write

The classes before and behind that of a written identifier keep their documents. -/

/-- The document of an identifier among those of some writes. -/
def docOf (upserts : List Upsert) (id : Json) : Json := (last? upserts id).getD .null

section

variable {values : List Json} {f : Json → Json} {value doc : Json}

/-- A list without equal values has one place for what equals one of them. -/
theorem exists_split (hapart : ∀ value ∈ values, value.namesApart = true)
    (hpair : values.Pairwise fun a b => a.equal b = false) (hid : id.namesApart = true)
    (hvalue : value ∈ values) (hequal : value.equal id = true) :
    ∃ before after, values = before ++ value :: after
      ∧ ∀ other ∈ before ++ after, other.equal id = false := by
  obtain ⟨before, after, rfl⟩ := List.append_of_mem hvalue
  refine ⟨before, after, rfl, fun other hother => ?_⟩
  obtain ⟨-, hbehind, hacross⟩ := List.pairwise_append.mp hpair
  rcases List.mem_append.mp hother with hbefore | hafter
  · have hmem : other ∈ before ++ value :: after := List.mem_append_left _ hbefore
    rw [← Json.equal_congr_right (hapart other hmem) (hapart value hvalue) hid hequal]
    exact hacross other hbefore value List.mem_cons_self
  · have hmem : other ∈ before ++ value :: after :=
      List.mem_append_right _ (List.mem_cons_of_mem _ hafter)
    refine Bool.eq_false_iff.mpr fun hother => ?_
    have hlevel := Json.equal_trans (hapart value hvalue) hid (hapart other hmem) hequal
      (Json.equal_symm (hapart other hmem) hid hother)
    rw [(List.pairwise_cons.mp hbehind).1 other hafter] at hlevel
    cases hlevel

/-- What a class has for its document when another one is written under an identifier. -/
def written (id doc : Json) (f : Json → Json) (value : Json) : Json :=
  if id.equal value then doc else f value

theorem written_of_ne (hid : id.namesApart = true) (hvalue : value.namesApart = true)
    (hne : value.equal id = false) : written id doc f value = f value := by
  refine if_neg fun hequal => ?_
  rw [Json.equal_symm hid hvalue hequal] at hne
  cases hne

theorem map_written_of_ne (hid : id.namesApart = true)
    (hapart : ∀ value ∈ values, value.namesApart = true)
    (hne : ∀ value ∈ values, value.equal id = false) :
    values.map (written id doc f) = values.map f :=
  List.map_congr_left fun value hvalue => written_of_ne hid (hapart value hvalue) (hne value hvalue)

section

variable (hid : id.namesApart = true) (hapart : ∀ value ∈ values, value.namesApart = true)
  (hfinds : ∀ value ∈ values, Store.identifies id (f value) = value.equal id)

include hid hapart hfinds

/-- A write under an identifier of a new class adds the class behind the others. -/
theorem replaceFirst_map_of_none (hne : ∀ value ∈ values, value.equal id = false) :
    Store.replaceFirst id doc (values.map f) = (values ++ [id]).map (written id doc f) := by
  have hnone : ∀ doc ∈ values.map f, Store.identifies id doc = false := by
    intro doc hdoc
    obtain ⟨value, hvalue, rfl⟩ := List.mem_map.mp hdoc
    rw [hfinds value hvalue, hne value hvalue]
  rw [Store.replaceFirst_of_none hnone, List.map_append, map_written_of_ne hid hapart hne,
    List.map_singleton, written, if_pos (Json.equal_self hid)]

/-- A write under an identifier of a known class changes the document of this class. -/
theorem replaceFirst_map_of_mem (hpair : values.Pairwise fun a b => a.equal b = false)
    (hvalue : value ∈ values) (hequal : value.equal id = true) :
    Store.replaceFirst id doc (values.map f) = values.map (written id doc f) := by
  obtain ⟨before, after, rfl, hothers⟩ := exists_split hapart hpair hid hvalue hequal
  have hbefore : ∀ doc ∈ before.map f, Store.identifies id doc = false := by
    intro doc hdoc
    obtain ⟨other, hother, rfl⟩ := List.mem_map.mp hdoc
    rw [hfinds other (List.mem_append_left _ hother)]
    exact hothers other (List.mem_append_left _ hother)
  -- the classes in front of this one and behind it keep their documents
  have hfront : before.map (written id doc f) = before.map f :=
    map_written_of_ne hid (fun other hother => hapart other (List.mem_append_left _ hother))
      fun other hother => hothers other (List.mem_append_left _ hother)
  have hback : after.map (written id doc f) = after.map f :=
    map_written_of_ne hid
      (fun other hother => hapart other (List.mem_append_right _ (List.mem_cons_of_mem _ hother)))
      fun other hother => hothers other (List.mem_append_right _ hother)
  have hwritten : written id doc f value = doc :=
    if_pos (Json.equal_symm (hapart value hvalue) hid hequal)
  rw [List.map_append, List.map_cons,
    Store.replaceFirst_append hbefore ((hfinds value hvalue).trans hequal), List.map_append,
    List.map_cons, hfront, hback, hwritten]

/-- A write changes the document of its class and no other, and adds the class if it is new. -/
theorem replaceFirst_map (hpair : values.Pairwise fun a b => a.equal b = false) :
    Store.replaceFirst id doc (values.map f)
      = (Store.addNew values id).map (written id doc f) := by
  rw [Store.addNew]
  split
  · next hany =>
      obtain ⟨value, hvalue, hequal⟩ := List.any_eq_true.mp hany
      exact replaceFirst_map_of_mem hid hapart hfinds hpair hvalue hequal
  · next hnone =>
      refine replaceFirst_map_of_none hid hapart hfinds fun value hvalue => ?_
      exact Bool.eq_false_iff.mpr fun hequal => hnone (List.any_eq_true.mpr ⟨value, hvalue, hequal⟩)

end

end

/-! ## A run of writes -/

section

variable (hfit : ∀ upsert ∈ upserts, upsert.IsFitting)

include hfit

theorem identifies_docOf (h : a ∈ ids upserts) (hb : b.namesApart = true) :
    Store.identifies b (docOf upserts a) = a.equal b := by
  obtain ⟨upsert, hupsert, hequal, hlast⟩ := exists_last hfit h
  have hfits := hfit upsert hupsert
  rw [docOf, hlast, Option.getD_some, hfits.identifies_doc hb]
  exact Json.equal_congr_left hfits.id_apart (apart_of_mem_ids hfit h) hb hequal

/-- The document of an identifier bears an equal one. -/
theorem idOf_docOf (h : id ∈ ids upserts) : (idOf (docOf upserts id)).namesApart = true
    ∧ (idOf (docOf upserts id)).equal id = true := by
  obtain ⟨upsert, hupsert, hequal, hlast⟩ := exists_last hfit h
  have hfits := hfit upsert hupsert
  rw [docOf, hlast, Option.getD_some]
  exact ⟨hfits.idOf_apart, Json.equal_trans hfits.idOf_apart hfits.id_apart
    (apart_of_mem_ids hfit h) hfits.idOf_equal hequal⟩

/-- A collection that was empty lists, for each class of identifiers, what was written last. -/
theorem documents_upsertAll {store : Store} {collection : String}
    (hempty : store.documents collection = []) :
    (store.upsertAll collection upserts).documents collection
      = (ids upserts).map (docOf upserts) := by
  induction upserts using List.reverseRecOn with
  | nil => exact hempty
  | append_singleton upserts upsert ih =>
      have hearlier : ∀ earlier ∈ upserts, earlier.IsFitting := fun earlier hmem =>
        hfit earlier (List.mem_append_left _ hmem)
      have hid := (hfit upsert (by simp)).id_apart
      have hdoc : docOf (upserts ++ [upsert])
          = written upsert.id upsert.doc (docOf upserts) := by
        funext id
        rw [docOf, last?_append, written]
        split <;> rfl
      -- the last write meets what the earlier ones have left
      rw [Store.upsertAll, List.foldl_append, List.foldl_cons, List.foldl_nil,
        Store.documents_upsert, ← Store.upsertAll, ih hearlier, ids_append, hdoc]
      exact replaceFirst_map hid (fun id => apart_of_mem_ids hearlier)
        (fun id hmem => identifies_docOf hearlier hmem hid) (pairwise_ids upserts)

/-- The classes are listed in the order in which they were first met. -/
theorem firstIndex_ids :
    (ids upserts).Pairwise fun a b => firstIndex upserts a < firstIndex upserts b := by
  induction upserts using List.reverseRecOn with
  | nil => exact .nil
  | append_singleton upserts upsert ih =>
      have hearlier : ∀ earlier ∈ upserts, earlier.IsFitting := fun earlier hmem =>
        hfit earlier (List.mem_append_left _ hmem)
      have hmet : ∀ id ∈ ids upserts, firstIndex upserts id < upserts.length
          ∧ firstIndex (upserts ++ [upsert]) id = firstIndex upserts id := by
        intro id hmem
        obtain ⟨first, hfirst, rfl⟩ := exists_of_mem_ids hmem
        have hlt := firstIndex_lt_length.mpr
          ⟨first, hfirst, Json.equal_self (hearlier first hfirst).id_apart⟩
        exact ⟨hlt, by rw [firstIndex_append, if_pos hlt]⟩
      have hknown : (ids upserts).Pairwise fun a b =>
          firstIndex (upserts ++ [upsert]) a < firstIndex (upserts ++ [upsert]) b := by
        refine (ih hearlier).imp_of_mem fun {a b} ha hb hlt => ?_
        rw [(hmet a ha).2, (hmet b hb).2]
        exact hlt
      rw [ids_append, Store.addNew]
      split
      · exact hknown
      · next hnew =>
          refine List.pairwise_append.mpr ⟨hknown, List.pairwise_singleton _ _, ?_⟩
          intro a ha b hb
          rw [List.mem_singleton.mp hb, (hmet a ha).2]
          -- a new class was never met before the last write
          have hunmet : ¬ firstIndex upserts upsert.id < upserts.length := by
            intro hlt
            obtain ⟨first, hfirst, hequal⟩ := firstIndex_lt_length.mp hlt
            obtain ⟨id, hid, hfound⟩ := exists_equal_ids hearlier hfirst
            refine hnew (List.any_eq_true.mpr ⟨id, hid, ?_⟩)
            exact Json.equal_trans (apart_of_mem_ids hearlier hid) (hearlier first hfirst).id_apart
              (hfit upsert (by simp)).id_apart hfound hequal
          rw [firstIndex_append, if_neg hunmet]
          exact Nat.lt_of_lt_of_le (hmet a ha).1 (Nat.le_add_left _ _)

/-- Documents of different classes have different identifiers. -/
theorem apart_docOf : ((ids upserts).map (docOf upserts)).Pairwise fun a b =>
    (idOf a).equal (idOf b) = false ∧ (idOf b).equal (idOf a) = false := by
  refine List.pairwise_map.mpr ((pairwise_ids upserts).imp_of_mem fun {a b} ha hb hne => ?_)
  obtain ⟨haApart, haEqual⟩ := idOf_docOf hfit ha
  obtain ⟨hbApart, hbEqual⟩ := idOf_docOf hfit hb
  have ha' := apart_of_mem_ids hfit ha
  have hb' := apart_of_mem_ids hfit hb
  have hlevel : (idOf (docOf upserts a)).equal (idOf (docOf upserts b)) = false := by
    rw [Json.equal_congr_right haApart hbApart hb' hbEqual,
      Json.equal_congr_left haApart ha' hb' haEqual, hne]
  refine ⟨hlevel, Bool.eq_false_iff.mpr fun hequal => ?_⟩
  rw [Json.equal_symm hbApart haApart hequal] at hlevel
  cases hlevel

/-- A written identifier finds the document of its class alone. -/
theorem filter_docOf (hupsert : upsert ∈ upserts) : ∃ doc, last? upserts upsert.id = some doc
    ∧ ((ids upserts).map (docOf upserts)).filter (Store.identifies upsert.id) = [doc] := by
  have hids : ∀ id ∈ ids upserts, id.namesApart = true := fun id => apart_of_mem_ids hfit
  have hwritten := (hfit upsert hupsert).id_apart
  obtain ⟨id, hid, hequal⟩ := exists_equal_ids hfit hupsert
  obtain ⟨last, -, -, hlast⟩ := exists_last hfit hid
  obtain ⟨before, after, hsplit, hothers⟩ :=
    exists_split hids (pairwise_ids upserts) hwritten hid hequal
  have hclass : (ids upserts).filter (fun id => id.equal upsert.id) = [id] := by
    have hnone : ∀ others ⊆ before ++ after, others.filter (fun id => id.equal upsert.id) = [] :=
      fun others hsubset => List.filter_eq_nil_iff.mpr fun other hother =>
        Bool.eq_false_iff.mp (hothers other (hsubset hother))
    rw [hsplit, List.filter_append, List.filter_cons, if_pos hequal,
      hnone before (List.subset_append_left _ _), hnone after (List.subset_append_right _ _)]
    rfl
  have hfinds : (ids upserts).filter (Store.identifies upsert.id ∘ docOf upserts) = [id] :=
    (List.filter_congr fun id hid => identifies_docOf hfit hid hwritten).trans hclass
  refine ⟨last.doc, (last?_congr hfit (hids id hid) hwritten hequal).symm.trans hlast, ?_⟩
  rw [List.filter_map, hfinds, List.map_singleton, docOf, hlast, Option.getD_some]

theorem ordered_docOf : ((ids upserts).map (docOf upserts)).Pairwise fun a b =>
    firstIndex upserts (idOf a) < firstIndex upserts (idOf b) := by
  have hindex : ∀ id ∈ ids upserts,
      firstIndex upserts (idOf (docOf upserts id)) = firstIndex upserts id := by
    intro id hid
    obtain ⟨hdoc, hequal⟩ := idOf_docOf hfit hid
    exact firstIndex_congr hfit hdoc (apart_of_mem_ids hfit hid) hequal
  refine List.pairwise_map.mpr ((firstIndex_ids hfit).imp_of_mem fun {a b} ha hb hlt => ?_)
  rw [hindex a ha, hindex b hb]
  exact hlt

end

end Upsert

/-- A collection that is only written under identifiers keeps for each of them what was written
last. After every write of a run that began with an empty collection, no two documents have equal
identifiers, there are as many as there are different identifiers, each identifier finds the
document that was last written under it, and the documents stand in the order of the first writes
under their identifiers. -/
theorem Store.upsertAll_keeps_last {store : Store} {collection : String} {upserts : List Upsert}
    (hempty : store.documents collection = []) (hfit : ∀ upsert ∈ upserts, upsert.IsFitting)
    {earlier : List Upsert} (hearlier : earlier <+: upserts) :
    Upsert.AreLast earlier ((store.upsertAll collection earlier).documents collection) := by
  have hfits : ∀ upsert ∈ earlier, upsert.IsFitting := fun upsert hmem =>
    hfit upsert (hearlier.subset hmem)
  rw [Upsert.documents_upsertAll hfits hempty]
  exact ⟨Upsert.apart_docOf hfits, List.length_map .., fun _ => Upsert.filter_docOf hfits,
    Upsert.ordered_docOf hfits⟩

/-- Three writes under two identifiers: an object that is borne in another order of its members, and
a number that is written in two kinds. -/
theorem Store.upsertAll_keeps_last_of_three :
    let again : Json := .obj [("_id", .int 1), ("notes", .str "again")]
    let upserts : List Upsert := [⟨.int 1, .obj [("_id", .int 1)]⟩,
      ⟨.obj [("a", .int 2), ("b", .null)], .obj [("_id", .obj [("b", .null), ("a", .int 2)])]⟩,
      ⟨.double (Double.ofInt 1), again⟩]
    (∀ upsert ∈ upserts, upsert.IsFitting)
      ∧ ((Store.empty.upsertAll "runs" upserts).documents "runs").length = 2
      ∧ ((Store.empty.upsertAll "runs" upserts).documents "runs").filter
        (Store.identifies (.int 1)) = [again] := by
  intro again upserts
  have hempty : Store.empty.documents "runs" = [] := rfl
  have hfit : ∀ upsert ∈ upserts, upsert.IsFitting := by
    refine List.forall_mem_cons.mpr ⟨⟨rfl, rfl, rfl⟩, ?_⟩
    refine List.forall_mem_cons.mpr ⟨⟨rfl, rfl, rfl⟩, ?_⟩
    exact List.forall_mem_singleton.mpr ⟨rfl, rfl, rfl⟩
  have hkeeps := Store.upsertAll_keeps_last hempty hfit (List.prefix_refl upserts)
  have hids : (Upsert.ids upserts).length = 2 := by decide
  obtain ⟨doc, hlast, hfound⟩ := hkeeps.last ⟨.int 1, .obj [("_id", .int 1)]⟩ List.mem_cons_self
  have hagain : Upsert.last? upserts (.int 1) = some again := rfl
  cases hagain.symm.trans hlast
  exact ⟨hfit, hkeeps.length_eq.trans hids, hfound⟩

end RunTable
