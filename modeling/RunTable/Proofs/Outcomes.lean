import Mathlib.Data.List.Forall2
import RunTable.Pipeline.Run

/-!
# Taking apart what succeeded

Stages fail as a whole, so every statement about a pipeline starts from the same question: what is
known of the parts if the whole succeeded? A sequence of two steps has an intermediate value, and a
map that may fail stands row by row for what it did to each. The equivalences below are all that
later files use of the error monad; those about options let success be computed where the inputs are
given.
-/

namespace RunTable

variable {ε α β : Type}

namespace Outcome

@[simp] theorem ok_bind (a : α) (f : α → Except ε β) : (Except.ok a >>= f) = f a := rfl

theorem bind_eq_ok {x : Except ε α} {f : α → Except ε β} {b : β} :
    (x >>= f) = .ok b ↔ ∃ a, x = .ok a ∧ f a = .ok b := by
  cases x with
  | error e => simp [bind, Except.bind]
  | ok a => simp [bind, Except.bind]

theorem toOption_eq_some {x : Except ε α} {a : α} : x.toOption = some a ↔ x = .ok a := by
  cases x <;> simp [Except.toOption]

theorem isSome_toOption_iff {x : Except ε α} :
    x.toOption.isSome = true ↔ ∃ a, x = .ok a := by
  simp only [Option.isSome_iff_exists, toOption_eq_some]

/-- Whether two steps succeed can be computed without naming what they give. -/
theorem isSome_toOption_bind_iff {x : Except ε α} {f : α → Except ε β} :
    (x >>= f).toOption.isSome = true ↔ ∃ a b, x = .ok a ∧ f a = .ok b := by
  rw [isSome_toOption_iff, exists_comm]
  exact exists_congr fun b => bind_eq_ok

/-- A map succeeds with what each of its elements gives. -/
theorem mapM_eq_ok {f : α → Except ε β} {as : List α} {bs : List β} :
    as.mapM f = .ok bs ↔ List.Forall₂ (fun a b => f a = .ok b) as bs := by
  induction as generalizing bs with
  | nil =>
      rw [List.forall₂_nil_left_iff, List.mapM_nil]
      exact ⟨fun h => (Except.ok.inj h).symm, fun h => h ▸ rfl⟩
  | cons a as ih =>
      rw [List.forall₂_cons_left_iff, List.mapM_cons, bind_eq_ok]
      constructor
      · rintro ⟨b, hb, hrest⟩
        obtain ⟨rest, hmap, hret⟩ := bind_eq_ok.mp hrest
        cases hret
        exact ⟨b, rest, hb, ih.mp hmap, rfl⟩
      · rintro ⟨b, rest, hb, hmap, rfl⟩
        exact ⟨b, hb, bind_eq_ok.mpr ⟨rest, ih.mpr hmap, rfl⟩⟩

/-- What stands on the right has its counterpart on the left. -/
theorem exists_of_mem_right {R : α → β → Prop} {as : List α} {bs : List β}
    (h : List.Forall₂ R as bs) {b : β} (hb : b ∈ bs) : ∃ a ∈ as, R a b := by
  induction h with
  | nil => cases hb
  | @cons a b' as bs hab _ ih =>
      rcases List.mem_cons.mp hb with rfl | hb
      · exact ⟨a, List.mem_cons_self, hab⟩
      · obtain ⟨a', ha', hrel⟩ := ih hb
        exact ⟨a', List.mem_cons_of_mem _ ha', hrel⟩

theorem exists_forall₂ {R : α → β → Prop} {as : List α} (h : ∀ a ∈ as, ∃ b, R a b) :
    ∃ bs, List.Forall₂ R as bs := by
  induction as with
  | nil => exact ⟨[], .nil⟩
  | cons a as ih =>
      obtain ⟨b, hb⟩ := h a List.mem_cons_self
      obtain ⟨bs, hbs⟩ := ih fun a' ha' => h a' (List.mem_cons_of_mem _ ha')
      exact ⟨b :: bs, .cons hb hbs⟩

/-- What is in the result of a map came out of one of its elements. -/
theorem mem_of_mapM {f : α → Except ε β} {as : List α} {bs : List β} (h : as.mapM f = .ok bs)
    {b : β} (hb : b ∈ bs) : ∃ a ∈ as, f a = .ok b := exists_of_mem_right (mapM_eq_ok.mp h) hb

theorem mapM_ok {f : α → Except ε β} {g : α → β} {as : List α}
    (h : ∀ a ∈ as, f a = .ok (g a)) : as.mapM f = .ok (as.map g) := by
  rw [mapM_eq_ok, List.forall₂_map_right_iff, List.forall₂_same]
  exact h

theorem mapM_congr {f g : α → Except ε β} {as : List α} (h : ∀ a ∈ as, f a = g a) :
    as.mapM f = as.mapM g := by
  induction as with
  | nil => rfl
  | cons a as ih =>
      rw [List.mapM_cons, List.mapM_cons, h a List.mem_cons_self,
        ih fun b hb => h b (List.mem_cons_of_mem _ hb)]

/-- A map over a list succeeds if it does what is wanted of each element. -/
theorem mapM_of_forall₂ {γ δ : Type} {f : β → Except ε γ} {g : γ → δ} {want : α → δ} {as : List α}
    {bs : List β} (h : List.Forall₂ (fun a b => ∃ c, f b = .ok c ∧ g c = want a) as bs) :
    ∃ cs, bs.mapM f = .ok cs ∧ cs.map g = as.map want := by
  induction h with
  | nil => exact ⟨[], rfl, rfl⟩
  | @cons a b as bs hab _ ih =>
      obtain ⟨c, hc, hwant⟩ := hab
      obtain ⟨cs, hcs, hmap⟩ := ih
      refine ⟨c :: cs, ?_, by rw [List.map_cons, List.map_cons, hwant, hmap]⟩
      rw [List.mapM_cons, hc, ok_bind, hcs]
      rfl

theorem forall₂_imp_of_mem {R S : α → β → Prop} {as : List α} {bs : List β}
    (h : List.Forall₂ R as bs) (himp : ∀ a ∈ as, ∀ b, R a b → S a b) : List.Forall₂ S as bs :=
  ((List.forall₂_and_left _ _).mpr ⟨himp, h⟩).imp fun _ b hab => hab.1 b hab.2

/-- What stands at a place on the left has its counterpart at that place on the right. -/
theorem getElem?_of_forall₂ {R : α → β → Prop} {as : List α} {bs : List β}
    (h : List.Forall₂ R as bs) {i : Nat} {a : α} (ha : as[i]? = some a) :
    ∃ b, bs[i]? = some b ∧ R a b := by
  induction h generalizing i with
  | nil => cases ha
  | @cons a' b as bs hab _ ih =>
      cases i with
      | zero =>
          cases ha
          exact ⟨b, rfl, hab⟩
      | succ i => exact ih ha

end Outcome

namespace Pipeline

variable {collections : Collections} {stage : Stage} {stages : List Stage} {rows : List Json}

theorem run_cons : run collections (stage :: stages) rows
    = (stage.apply collections rows >>= run collections stages) := rfl

theorem run_single : run collections [stage] rows = stage.apply collections rows := by
  rw [run_cons]
  cases stage.apply collections rows <;> rfl

theorem run_append_eq_ok {first second : List Stage} {result : List Json} :
    run collections (first ++ second) rows = .ok result
      ↔ ∃ between, run collections first rows = .ok between
        ∧ run collections second between = .ok result := by
  rw [run_append, Outcome.bind_eq_ok]

/-- If it is known what the first stages make of the rows, the others start from there. -/
theorem run_append_iff {γ : Type} {P : γ → Prop} {out : γ → List Json} {first second : List Stage}
    {result : List Json}
    (h : ∀ between, run collections first rows = .ok between ↔ ∃ x, P x ∧ between = out x) :
    run collections (first ++ second) rows = .ok result
      ↔ ∃ x, P x ∧ run collections second (out x) = .ok result := by
  rw [run_append_eq_ok]
  constructor
  · rintro ⟨between, hfirst, hsecond⟩
    obtain ⟨x, hx, rfl⟩ := (h between).mp hfirst
    exact ⟨x, hx, hsecond⟩
  · rintro ⟨x, hx, hsecond⟩
    exact ⟨out x, (h _).mpr ⟨x, hx, rfl⟩, hsecond⟩

/-- A stage that cannot fail hands its rows on. -/
theorem run_cons_ok {result : List Json} (h : stage.apply collections rows = .ok result) :
    run collections (stage :: stages) rows = run collections stages result := by
  rw [run_cons, h]
  rfl

end Pipeline

end RunTable
