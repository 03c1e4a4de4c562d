import RunTable.Proofs.Writes

/-!
# Documents that differ at one place

Two documents are often made by the same writes, but for some at one place that only the first of
them has. As long as every write finds objects on its way, each of them can be followed alone. But a
write replaces what is in its way, so a write at the one place can decide what a later write finds,
and where it lost an array, everything in the array is lost in one document only.

So the two documents are compared as they stand. At the place and below it they may be anything, and
beside the way there they are the same, unless the way leads through an object in the first and
through something else in the second. The same writes made to both keep this, and so do further
writes at the place. And a read that parts with the way sees the same in both, unless the second
document has an array where they part or before.
-/

namespace RunTable.Document

variable {p q rest : List String} {s : String} {doc top : Json}

/-- Whether a document is another one but for what was written at a place, if anything was. -/
def Overlays : List String → Json → Json → Prop
  | [], _, _ => True
  | s :: rest, top, doc => top = doc
    ∨ top.isObject = true ∧ (∀ name, name ≠ s → top.member? name = doc.member? name)
      ∧ Overlays rest ((top.member? s).getD (.obj [])) ((doc.member? s).getD (.obj []))

theorem Overlays.refl (p : List String) (doc : Json) : Overlays p doc doc := by
  cases p with
  | nil => trivial
  | cons s rest => exact .inl rfl

/-- What is in the way of a write counts as an empty object. -/
theorem member?_setAt (s : String) (rest : List String) (value doc : Json) :
    ((setAt (s :: rest) value doc).isObject = true)
      ∧ (setAt (s :: rest) value doc).member? s
        = some (setAt rest value ((doc.member? s).getD (.obj [])))
      ∧ ∀ name, name ≠ s → (setAt (s :: rest) value doc).member? name = doc.member? name := by
  refine ⟨rfl, Table.lookup_put_self _ _ _, fun name hname => ?_⟩
  rw [member?_eq_lookup, member?_eq_lookup]
  exact lookup_setAt_of_ne hname rest value doc

namespace Overlays

theorem setAt (h : Overlays p top doc) (q : List String) (value : Json) :
    Overlays p (setAt q value top) (setAt q value doc) := by
  induction p generalizing q top doc with
  | nil => trivial
  | cons s rest ih =>
      cases q with
      | nil => exact .inl rfl
      | cons t q =>
          rcases h with rfl | ⟨-, hother, hbelow⟩
          · exact .inl rfl
          · obtain ⟨hobject, hself, hspares⟩ := member?_setAt t q value top
            obtain ⟨-, hself', hspares'⟩ := member?_setAt t q value doc
            refine .inr ⟨hobject, fun name hname => ?_, ?_⟩
            · by_cases ht : name = t
              · subst ht
                rw [hself, hself', hother name hname]
              · rw [hspares name ht, hspares' name ht, hother name hname]
            · by_cases ht : s = t
              · subst ht
                rw [hself, hself']
                exact ih hbelow q
              · rwa [hspares s ht, hspares' s ht]

/-- A write at the place, made to the first document only. -/
theorem setAt_self (h : Overlays p top doc) (value : Json) :
    Overlays p (Document.setAt p value top) doc := by
  induction p generalizing top doc with
  | nil => trivial
  | cons s rest ih =>
      obtain ⟨hobject, hself, hspares⟩ := member?_setAt s rest value top
      have hsame : (∀ name, name ≠ s → top.member? name = doc.member? name)
          ∧ Overlays rest ((top.member? s).getD (.obj [])) ((doc.member? s).getD (.obj [])) := by
        rcases h with rfl | ⟨-, h⟩
        · exact ⟨fun _ _ => rfl, .refl _ _⟩
        · exact h
      refine .inr ⟨hobject, fun name hname => ?_, ?_⟩
      · rw [hspares name hname, hsame.1 name hname]
      · rw [hself]
        exact ih hsame.2

/-- All writes made to the first document, and to the second those that are kept. -/
theorem setAll_filter (h : Overlays p top doc) {keep : String → Bool}
    {writes : List (String × Json)}
    (hdrop : ∀ path ∈ Table.names writes, keep path = false → Path.segments path = p) :
    Overlays p (Document.setAll writes top)
      (Document.setAll (writes.filter fun write => keep write.1) doc) := by
  induction writes generalizing top doc with
  | nil => exact h
  | cons write writes ih =>
      have hrest : ∀ path ∈ Table.names writes, keep path = false → Path.segments path = p :=
        fun path hpath => hdrop path (List.mem_cons_of_mem _ hpath)
      rw [setAll_cons, List.filter_cons]
      by_cases hkeep : keep write.1 = true
      · rw [if_pos hkeep, setAll_cons]
        exact ih (h.setAt _ _) hrest
      · rw [if_neg hkeep]
        refine ih ?_ hrest
        rw [Document.set, hdrop write.1 List.mem_cons_self (Bool.not_eq_true _ ▸ hkeep)]
        exact h.setAt_self write.2

theorem setAll (h : Overlays p top doc) (writes : List (String × Json)) :
    Overlays p (Document.setAll writes top) (Document.setAll writes doc) := by
  induction writes generalizing top doc with
  | nil => exact h
  | cons write writes ih => exact ih (h.setAt _ _)

end Overlays

/-- Whatever is no array is entered by name. -/
theorem reads_member (hdoc : ∀ items, doc ≠ .arr items) (s : String) (q : List String) :
    getAt? (s :: q) doc = (doc.member? s).bind (getAt? q)
      ∧ candidatesAt (s :: q) doc = (doc.member? s).toList.flatMap (candidatesAt q) := by
  cases doc with
  | arr items => exact absurd rfl (hdoc items)
  | _ => exact ⟨rfl, rfl⟩

/-- A read apart from the place sees the same, if no array stands before it has parted with the way
there. -/
theorem Overlays.sameAt (h : Overlays p top doc) (hapart : Path.Apart p q)
    (hno : NoSharedArray p q doc) : SameAt q top doc := by
  induction p generalizing q top doc with
  | nil => exact absurd List.nil_prefix hapart.1
  | cons s rest ih =>
      cases q with
      | nil => exact absurd List.nil_prefix hapart.2
      | cons t q =>
          rcases h with rfl | ⟨hobject, hother, hbelow⟩
          · exact .refl _ _
          have htop : ∀ items, top ≠ .arr items := by
            rintro items rfl
            cases hobject
          have hdoc : ∀ items, doc ≠ .arr items := by
            rintro items rfl
            exact hno [] List.nil_prefix List.nil_prefix items rfl
          obtain ⟨htopGet, htopAll⟩ := reads_member htop t q
          obtain ⟨hdocGet, hdocAll⟩ := reads_member hdoc t q
          by_cases ht : t = s
          · subst ht
            have hq : q ≠ [] := fun hq => hapart.tail.2 (hq ▸ List.nil_prefix)
            have hsame := ih hbelow hapart.tail hno.child
            rw [SameAt, htopGet, htopAll, hdocGet, hdocAll, ← getAt?_getD hq, ← getAt?_getD hq,
              ← candidatesAt_getD hq, ← candidatesAt_getD hq]
            exact hsame
          · rw [SameAt, htopGet, htopAll, hdocGet, hdocAll, hother t ht]
            exact ⟨rfl, rfl⟩

/-- A read that parts with the way at the root sees the same. -/
theorem Overlays.sameAt_of_head?_ne (h : Overlays (s :: rest) top doc) (hdoc : doc.isObject = true)
    (hq : q ≠ []) (hne : q.head? ≠ some s) : SameAt q top doc := by
  refine h.sameAt ?_ (noSharedArray_of_head?_ne hdoc fun heq => hne heq.symm)
  cases q with
  | nil => exact absurd rfl hq
  | cons t q => exact Path.apart_of_head_ne (fun heq => hne (congrArg some heq.symm)) rest q

end RunTable.Document
