import Mathlib.Data.List.Infix
import RunTable.Document
import RunTable.Proofs.Tables

/-!
# What a write leaves alone

Everything that a pipeline adds to a row is written at a path, and everything that is asked of a row
afterwards is read at another one. The two meet in this file.

Three relations between a path and a document carry it. A path is *clear* in a document if it leads
through objects only, which is when a write there replaces nothing. It is *direct* if it never
branches, so that what a filter tests there is what is read there; a clear path is direct, and so is
one without an array above its end. And two documents are the *same at* a path if it reads the same
in both and a filter finds the same values.

A write leaves a path alone that lies apart from its own. And a write made to both of two documents
keeps them the same at every path, whichever way the two paths lie to each other: below the written
place both read the new value, above it they read their old value with the same change.
-/

namespace RunTable

/-- Two paths neither of which is the other or lies above it, by their segments. -/
def Path.Apart (p q : List String) : Prop := ¬ p <+: q ∧ ¬ q <+: p

instance (p q : List String) : Decidable (Path.Apart p q) :=
  inferInstanceAs (Decidable (¬ p <+: q ∧ ¬ q <+: p))

theorem Path.Apart.symm {p q : List String} (h : Path.Apart p q) : Path.Apart q p := And.symm h

theorem Path.Apart.tail {s : String} {p q : List String} (h : Path.Apart (s :: p) (s :: q)) :
    Path.Apart p q :=
  ⟨fun hp => h.1 (List.cons_prefix_cons.mpr ⟨rfl, hp⟩),
    fun hq => h.2 (List.cons_prefix_cons.mpr ⟨rfl, hq⟩)⟩

theorem Path.Apart.cons {p q : List String} (h : Path.Apart p q) (s : String) :
    Path.Apart (s :: p) (s :: q) :=
  ⟨fun hp => h.1 (List.cons_prefix_cons.mp hp).2, fun hq => h.2 (List.cons_prefix_cons.mp hq).2⟩

theorem Path.apart_of_head_ne {s t : String} (h : s ≠ t) (p q : List String) :
    Path.Apart (s :: p) (t :: q) :=
  ⟨fun hp => h (List.cons_prefix_cons.mp hp).1,
    fun hq => h (List.cons_prefix_cons.mp hq).1.symm⟩

/-- A name without a dot is a path of one segment. -/
theorem Path.segments_of_undotted {name : String} (h : '.' ∉ name.toList) :
    segments name = [name] := by
  have hchars : ∀ cs : List Char, '.' ∉ cs → Text.splitChars '.' cs = [cs] := by
    intro cs hcs
    induction cs with
    | nil => rfl
    | cons c cs ih =>
        rw [List.mem_cons, not_or] at hcs
        rw [Text.splitChars, if_neg (Ne.symm hcs.1), ih hcs.2]
  rw [segments, Text.split, hchars _ h, List.map_singleton, String.ofList_toList]

/-- Whether a value is neither an array nor an object. -/
def Json.isScalar : Json → Bool
  | .arr _ => false
  | .obj _ => false
  | _ => true

namespace Document

variable {p q rest : List String} {s : String} {doc other value : Json}
  {ms : List (String × Json)}

/-! ## Reading

An object is entered by name, and a list of segments is followed one part after the other. -/

theorem getAt?_obj : getAt? (s :: rest) (.obj ms) = (ms.lookup s).bind (getAt? rest) := rfl

theorem candidatesAt_obj :
    candidatesAt (s :: rest) (.obj ms) = (ms.lookup s).toList.flatMap (candidatesAt rest) := rfl

theorem getAt?_append (p q : List String) (doc : Json) :
    getAt? (p ++ q) doc = (getAt? p doc).bind (getAt? q) := by
  induction p generalizing doc with
  | nil => rfl
  | cons s rest ih =>
      rw [List.cons_append, getAt?, getAt?, Option.bind_assoc]
      exact congrArg _ (funext fun child => ih child)

/-- Nothing is read below a scalar. -/
theorem getAt?_of_isScalar (h : doc.isScalar = true) (hp : p ≠ []) : getAt? p doc = none := by
  cases p with
  | nil => exact absurd rfl hp
  | cons s rest => cases doc <;> first | rfl | cases h

theorem getAt?_single (name : String) (doc : Json) :
    getAt? [name] (.obj doc.members) = doc.members.lookup name := by
  rw [getAt?_obj]
  cases doc.members.lookup name <;> rfl

theorem member?_eq_lookup (name : String) (doc : Json) :
    doc.member? name = doc.members.lookup name := by
  cases doc <;> rfl

/-- Below a place where nothing is, nothing is read: it may as well hold an empty object. -/
theorem getAt?_getD (h : p ≠ []) (child : Option Json) :
    getAt? p (child.getD (.obj [])) = child.bind (getAt? p) := by
  cases p with
  | nil => exact absurd rfl h
  | cons s rest => cases child <;> rfl

theorem candidatesAt_getD (h : p ≠ []) (child : Option Json) :
    candidatesAt p (child.getD (.obj [])) = child.toList.flatMap (candidatesAt p) := by
  cases p with
  | nil => exact absurd rfl h
  | cons s rest => cases child <;> simp [candidatesAt, children]

theorem lookup_congr {ns : List (String × Json)}
    (h : getAt? [s] (.obj ms) = getAt? [s] (.obj ns)) : ms.lookup s = ns.lookup s := by
  rw [getAt?_obj, getAt?_obj] at h
  simpa [getAt?] using h

/-! ## Fields of the top level

A name without a dot is a path of one segment, and there the operations are those of tables. -/

theorem get?_name (h : Path.segments s = [s]) : get? s doc = child? s doc := by
  rw [get?, h, getAt?]
  cases child? s doc <;> rfl

theorem get?_name_obj (h : Path.segments s = [s]) : get? s (.obj ms) = ms.lookup s := get?_name h

/-- A name that is no position is read from objects only. -/
theorem get?_eq_member? (h : Path.segments s = [s]) (hs : Numeral.unsigned? s = none)
    (doc : Json) : get? s doc = doc.member? s := by
  rw [get?_name h]
  cases doc with
  | arr items =>
      rw [child?, item?, hs]
      rfl
  | _ => rfl

theorem set_name_obj (h : Path.segments s = [s]) :
    set s value (.obj ms) = .obj (Table.put s value ms) := by
  rw [set, h]
  rfl

theorem remove_name_obj (h : Path.segments s = [s]) :
    remove s (.obj ms) = .obj (Table.erase s ms) := by
  rw [remove, remove?, h, removeAt?]
  cases hm : ms.lookup s with
  | none =>
      rw [Table.erase_of_not_mem (Table.lookup_eq_none_iff.mp hm)]
      simp [Json.member?, hm]
  | some value => simp [Json.member?, Json.members, hm]

/-! ## Clear and direct paths -/

/-- The path leads through objects as far as the document goes. -/
def Clear : List String → Json → Prop
  | [], _ => True
  | s :: rest, doc =>
    ∃ ms, doc = .obj ms ∧ ∀ child, ms.lookup s = some child → Clear rest child

/-- The path never branches: at each step, a filter follows the one value that is read. -/
def Direct : List String → Json → Prop
  | [], _ => True
  | s :: rest, doc =>
    children s doc = (child? s doc).toList ∧ ∀ child, child? s doc = some child → Direct rest child

theorem clear_empty (p : List String) : Clear p (.obj []) := by
  cases p with
  | nil => trivial
  | cons s rest => exact ⟨[], rfl, by simp⟩

theorem clear_of_lookup_eq_none (h : ms.lookup s = none) : Clear (s :: rest) (.obj ms) :=
  ⟨ms, rfl, by simp [h]⟩

theorem clear_single (ms : List (String × Json)) : Clear [s] (.obj ms) :=
  ⟨ms, rfl, fun _ _ => trivial⟩

theorem Clear.child (h : Clear (s :: rest) (.obj ms)) :
    Clear rest ((ms.lookup s).getD (.obj [])) := by
  obtain ⟨_, hms, hrest⟩ := h
  cases hms
  cases hchild : ms.lookup s with
  | none => exact clear_empty rest
  | some child => exact hrest child hchild

theorem Clear.isObject (h : Clear (s :: rest) doc) : ∃ ms, doc = .obj ms := h.imp fun _ => And.left

theorem Clear.direct (h : Clear p doc) : Direct p doc := by
  induction p generalizing doc with
  | nil => trivial
  | cons s rest ih =>
      obtain ⟨ms, rfl, hrest⟩ := h
      exact ⟨rfl, fun child hchild => ih (hrest child hchild)⟩

/-- A path is direct if nothing above its end reads as an array. -/
theorem direct_of_no_array
    (h : ∀ front, front <+: p → front ≠ p → ∀ items, getAt? front doc ≠ some (.arr items)) :
    Direct p doc := by
  induction p generalizing doc with
  | nil => trivial
  | cons s rest ih =>
      have hroot := h [] List.nil_prefix (by simp)
      refine ⟨?_, fun child hchild => ih fun front hfront hne items hread => ?_⟩
      · cases doc with
        | arr items => exact absurd rfl (hroot items)
        | _ => rfl
      · have hlonger : s :: front <+: s :: rest := List.cons_prefix_cons.mpr ⟨rfl, hfront⟩
        refine h (s :: front) hlonger (by simpa using hne) items ?_
        rw [getAt?, hchild]
        exact hread

theorem Direct.append (h : Direct (p ++ q) doc) : Direct p doc := by
  induction p generalizing doc with
  | nil => trivial
  | cons s rest ih => exact ⟨h.1, fun child hchild => ih (h.2 child hchild)⟩

/-- Along a direct path, a filter arrives where a read arrives. -/
theorem Direct.candidatesAt_append (h : Direct p doc) (q : List String) :
    candidatesAt (p ++ q) doc = (getAt? p doc).elim [] (candidatesAt q) := by
  induction p generalizing doc with
  | nil => rfl
  | cons s rest ih =>
      obtain ⟨hstep, hrest⟩ := h
      rw [List.cons_append, candidatesAt, hstep, getAt?]
      cases hchild : child? s doc with
      | none => rfl
      | some child => simpa using ih (hrest child hchild)

/-! ## Writing -/

theorem setAt_cons (s : String) (rest : List String) (value doc : Json) :
    setAt (s :: rest) value doc
      = .obj (Table.put s (setAt rest value ((doc.member? s).getD (.obj []))) doc.members) := rfl

theorem setAt_obj (s : String) (rest : List String) (value : Json) (ms : List (String × Json)) :
    setAt (s :: rest) value (.obj ms)
      = .obj (Table.put s (setAt rest value ((ms.lookup s).getD (.obj []))) ms) := rfl

theorem lookup_setAt_of_ne {name : String} (h : name ≠ s) (rest : List String)
    (value doc : Json) :
    (setAt (s :: rest) value doc).members.lookup name = doc.members.lookup name := by
  rw [setAt_cons]
  exact Table.lookup_put_of_ne h _ _

theorem nodup_names_setAt (h : (Table.names doc.members).Nodup) (hp : p ≠ []) (value : Json) :
    (Table.names (setAt p value doc).members).Nodup := by
  cases p with
  | nil => exact absurd rfl hp
  | cons s rest => exact Table.nodup_names_put h

/-! ## Writes and paths apart from them -/

/-- A path that begins with no member of an object is apart from all that is stored there. -/
theorem apart_of_lookup_eq_none (hnone : ms.lookup s = none) (hq : q ≠ [])
    (hread : (getAt? q (.obj ms)).isSome) : Path.Apart (s :: rest) q := by
  cases q with
  | nil => exact absurd rfl hq
  | cons t q =>
      refine Path.apart_of_head_ne (fun heq => ?_) rest q
      rw [← heq, getAt?_obj, hnone] at hread
      cases hread

theorem getAt?_setAt_of_apart (hc : Clear p doc) (h : Path.Apart p q) (value : Json) :
    getAt? q (setAt p value doc) = getAt? q doc := by
  induction p generalizing q doc with
  | nil => exact absurd List.nil_prefix h.1
  | cons s rest ih =>
      obtain ⟨ms, rfl⟩ := hc.isObject
      cases q with
      | nil => exact absurd List.nil_prefix h.2
      | cons t q =>
          rw [setAt_obj, getAt?_obj, getAt?_obj]
          by_cases ht : t = s
          · subst ht
            have hq : q ≠ [] := fun hq => h.tail.2 (hq ▸ List.nil_prefix)
            rw [Table.lookup_put_self, Option.bind_some, ih hc.child h.tail, getAt?_getD hq]
          · rw [Table.lookup_put_of_ne ht]

theorem candidatesAt_setAt_of_apart (hc : Clear p doc) (h : Path.Apart p q) (value : Json) :
    candidatesAt q (setAt p value doc) = candidatesAt q doc := by
  induction p generalizing q doc with
  | nil => exact absurd List.nil_prefix h.1
  | cons s rest ih =>
      obtain ⟨ms, rfl⟩ := hc.isObject
      cases q with
      | nil => exact absurd List.nil_prefix h.2
      | cons t q =>
          rw [setAt_obj, candidatesAt_obj, candidatesAt_obj]
          by_cases ht : t = s
          · subst ht
            have hq : q ≠ [] := fun hq => h.tail.2 (hq ▸ List.nil_prefix)
            rw [Table.lookup_put_self, Option.toList_some, List.flatMap_singleton,
              ih hc.child h.tail, candidatesAt_getD hq]
          · rw [Table.lookup_put_of_ne ht]

/-- A write blocks no path that does not pass through the written place. -/
theorem Clear.setAt (hq : Clear q doc) (hp : Clear p doc) (h : p <+: q → p = q) (value : Json) :
    Clear q (setAt p value doc) := by
  induction p generalizing q doc with
  | nil =>
      rw [← h List.nil_prefix]
      trivial
  | cons s rest ih =>
      cases q with
      | nil => trivial
      | cons t q =>
          obtain ⟨ms, rfl⟩ := hp.isObject
          refine ⟨_, setAt_obj s rest value ms, fun child hchild => ?_⟩
          by_cases ht : t = s
          · subst ht
            rw [Table.lookup_put_self, Option.some.injEq] at hchild
            subst hchild
            exact ih hq.child hp.child fun hpre =>
              (List.cons.inj (h (List.cons_prefix_cons.mpr ⟨rfl, hpre⟩))).2
          · rw [Table.lookup_put_of_ne ht] at hchild
            obtain ⟨_, hms, hqrest⟩ := hq
            cases hms
            exact hqrest child hchild

/-! ## Writes that meet what is in their way

A write replaces whatever it meets on its way by an object. Only arrays have something to lose by
that at a path apart from the written one, since only they can be read by position. -/

/-- No array stands where two paths lead together. -/
def NoSharedArray (p q : List String) (doc : Json) : Prop :=
  ∀ front, front <+: p → front <+: q → ∀ items, getAt? front doc ≠ some (.arr items)

/-- Only the fronts of a path have to be looked at. -/
theorem noSharedArray_iff : NoSharedArray p q doc ↔ ∀ front ∈ p.inits, front <+: q →
    ((getAt? front doc).all fun value => !(value matches .arr _)) = true := by
  constructor
  · intro h front hp hq
    have hnone := h front ((List.mem_inits front p).mp hp) hq
    cases hread : getAt? front doc with
    | none => rfl
    | some value =>
        cases value with
        | arr items => exact absurd hread (hnone items)
        | _ => rfl
  · intro h front hp hq items hread
    have hall := h front ((List.mem_inits front p).mpr hp) hq
    rw [hread] at hall
    cases hall

instance (p q : List String) (doc : Json) : Decidable (NoSharedArray p q doc) :=
  decidable_of_iff' _ noSharedArray_iff

/-- Paths that part at the root of an object share no array. -/
theorem noSharedArray_of_head?_ne (hdoc : doc.isObject = true) (h : p.head? ≠ q.head?) :
    NoSharedArray p q doc := by
  intro front hp hq items hread
  cases front with
  | nil =>
      cases hread
      cases hdoc
  | cons s front =>
      obtain ⟨_, rfl⟩ := hp
      obtain ⟨_, rfl⟩ := hq
      exact h rfl

/-- An array below the first segment stands in the document as well. -/
theorem NoSharedArray.child (hno : NoSharedArray (s :: p) (s :: q) doc) :
    NoSharedArray p q ((doc.member? s).getD (.obj [])) := by
  intro front hp hq items hread
  cases hchild : doc.member? s with
  | none =>
      rw [hchild] at hread
      cases front <;> cases hread
  | some child =>
      rw [hchild] at hread
      refine hno (s :: front) (List.cons_prefix_cons.mpr ⟨rfl, hp⟩)
        (List.cons_prefix_cons.mpr ⟨rfl, hq⟩) items ?_
      cases doc with
      | obj members =>
          rw [getAt?_obj, show members.lookup s = some child from hchild]
          exact hread
      | _ => cases hchild

/-- What is read apart from a write is what was read before, or an array was lost. -/
theorem getAt?_setAt_cases (h : Path.Apart p q) (value doc : Json) :
    getAt? q (setAt p value doc) = getAt? q doc
      ∨ getAt? q (setAt p value doc) = none ∧ ¬ NoSharedArray p q doc := by
  induction p generalizing q doc with
  | nil => exact absurd List.nil_prefix h.1
  | cons s rest ih =>
      cases q with
      | nil => exact absurd List.nil_prefix h.2
      | cons t q =>
          have hlost : ∀ items, doc = .arr items → ¬ NoSharedArray (s :: rest) (t :: q) doc := by
            rintro items rfl hno
            exact hno [] List.nil_prefix List.nil_prefix items rfl
          rw [setAt_cons, getAt?_obj]
          by_cases ht : t = s
          · subst ht
            have hq : q ≠ [] := fun hq => h.tail.2 (hq ▸ List.nil_prefix)
            rw [Table.lookup_put_self, Option.bind_some]
            rcases ih h.tail ((doc.member? t).getD (.obj [])) with heq | ⟨hnone, hshared⟩
            · rw [heq, getAt?_getD hq]
              cases doc with
              | arr items => exact .inr ⟨rfl, hlost items rfl⟩
              | _ => exact .inl rfl
            · exact .inr ⟨hnone, fun hno => hshared hno.child⟩
          · rw [Table.lookup_put_of_ne ht]
            cases doc with
            | arr items => exact .inr ⟨rfl, hlost items rfl⟩
            | _ => exact .inl rfl

theorem getAt?_setAt_of_noSharedArray (h : Path.Apart p q) (hno : NoSharedArray p q doc)
    (value : Json) : getAt? q (setAt p value doc) = getAt? q doc :=
  (getAt?_setAt_cases h value doc).resolve_right fun hlost => hlost.2 hno

/-- Above a written place there is an object. -/
theorem getAt?_setAt_of_prefix (h : q <+: p) (hne : q ≠ p) (value doc : Json) :
    ∃ members, getAt? q (setAt p value doc) = some (.obj members) := by
  induction p generalizing q doc with
  | nil => exact absurd (List.prefix_nil.mp h) hne
  | cons s rest ih =>
      cases q with
      | nil => exact ⟨_, congrArg some (setAt_cons s rest value doc)⟩
      | cons t q =>
          obtain ⟨rfl, hrest⟩ := List.cons_prefix_cons.mp h
          rw [setAt_cons, getAt?_obj, Table.lookup_put_self, Option.bind_some]
          exact ih hrest (fun heq => hne (by rw [heq])) _

/-- A write puts no array where another path leads. -/
theorem NoSharedArray.setAt {p' : List String} (hno : NoSharedArray p' q doc)
    (h : Path.Apart p q) (value : Json) : NoSharedArray p' q (setAt p value doc) := by
  intro front hp' hq items hread
  have hnot : ¬ p <+: front := fun hpre => h.1 (hpre.trans hq)
  by_cases hpre : front <+: p
  · obtain ⟨members, hobj⟩ :=
      getAt?_setAt_of_prefix hpre (fun heq => hnot (heq ▸ List.prefix_refl _)) value doc
    rw [hobj] at hread
    cases hread
  · rcases getAt?_setAt_cases ⟨hnot, hpre⟩ value doc with heq | ⟨hnone, -⟩
    · exact hno front hp' hq items (heq ▸ hread)
    · rw [hnone] at hread
      cases hread

/-! ## Documents that are the same at a path -/

/-- The path reads the same in both documents, and a filter finds the same values. -/
def SameAt (p : List String) (doc other : Json) : Prop :=
  getAt? p doc = getAt? p other ∧ candidatesAt p doc = candidatesAt p other

theorem SameAt.refl (p : List String) (doc : Json) : SameAt p doc doc := ⟨rfl, rfl⟩

theorem SameAt.symm (h : SameAt p doc other) : SameAt p other doc := ⟨h.1.symm, h.2.symm⟩

theorem SameAt.trans {third : Json} (h : SameAt p doc other) (h' : SameAt p other third) :
    SameAt p doc third := ⟨h.1.trans h'.1, h.2.trans h'.2⟩

theorem sameAt_of_lookup_eq {ns : List (String × Json)} (h : ms.lookup s = ns.lookup s) :
    SameAt (s :: rest) (.obj ms) (.obj ns) :=
  ⟨by rw [getAt?_obj, getAt?_obj, h], by rw [candidatesAt_obj, candidatesAt_obj, h]⟩

theorem sameAt_setAt (hc : Clear p doc) (h : Path.Apart p q) (value : Json) :
    SameAt q (setAt p value doc) doc :=
  ⟨getAt?_setAt_of_apart hc h value, candidatesAt_setAt_of_apart hc h value⟩

/-- Along paths that are direct in both documents, what is the same there stays the same below. -/
theorem SameAt.append (h : getAt? p doc = getAt? p other) (hd : Direct p doc)
    (hd' : Direct p other) (q : List String) : SameAt (p ++ q) doc other := by
  refine ⟨?_, ?_⟩
  · rw [getAt?_append, getAt?_append, h]
  · rw [hd.candidatesAt_append, hd'.candidatesAt_append, h]

/-- The same write made to two documents keeps every read that was the same. -/
theorem getAt?_setAt_congr (hp : Clear p doc) (hp' : Clear p other)
    (h : getAt? q doc = getAt? q other) (value : Json) :
    getAt? q (setAt p value doc) = getAt? q (setAt p value other) := by
  induction p generalizing q doc other with
  | nil => rfl
  | cons s rest ih =>
      cases q with
      | nil =>
          cases h
          rfl
      | cons t q =>
          obtain ⟨ms, rfl⟩ := hp.isObject
          obtain ⟨ns, rfl⟩ := hp'.isObject
          rw [setAt_obj, setAt_obj, getAt?_obj, getAt?_obj]
          by_cases ht : t = s
          · subst ht
            rw [Table.lookup_put_self, Table.lookup_put_self, Option.bind_some, Option.bind_some]
            cases q with
            | nil => rw [lookup_congr h]
            | cons u q =>
                refine ih hp.child hp'.child ?_
                rw [getAt?_getD (by simp), getAt?_getD (by simp)]
                exact h
          · rw [Table.lookup_put_of_ne ht, Table.lookup_put_of_ne ht]
            exact h

/-- The same write made to two documents keeps them the same wherever they were. -/
theorem SameAt.setAt (hp : Clear p doc) (hp' : Clear p other) (h : SameAt q doc other)
    (value : Json) : SameAt q (setAt p value doc) (setAt p value other) := by
  refine ⟨getAt?_setAt_congr hp hp' h.1 value, ?_⟩
  induction p generalizing q doc other with
  | nil => rfl
  | cons s rest ih =>
      cases q with
      | nil =>
          obtain ⟨h, -⟩ := h
          cases h
          rfl
      | cons t q =>
          obtain ⟨ms, rfl⟩ := hp.isObject
          obtain ⟨ns, rfl⟩ := hp'.isObject
          rw [setAt_obj, setAt_obj, candidatesAt_obj, candidatesAt_obj]
          by_cases ht : t = s
          · subst ht
            rw [Table.lookup_put_self, Table.lookup_put_self, Option.toList_some,
              Option.toList_some, List.flatMap_singleton, List.flatMap_singleton]
            -- at the end of the path the whole child counts; below it, what either holds there
            cases q with
            | nil => rw [lookup_congr h.1]
            | cons u q =>
                refine ih hp.child hp'.child ⟨?_, ?_⟩
                · rw [getAt?_getD (by simp), getAt?_getD (by simp)]
                  exact h.1
                · rw [candidatesAt_getD (by simp), candidatesAt_getD (by simp)]
                  exact h.2
          · rw [Table.lookup_put_of_ne ht, Table.lookup_put_of_ne ht]
            exact h.2

end Document

end RunTable
