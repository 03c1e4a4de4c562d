import RunTable.Plan.Paging
import RunTable.Proofs.Outcomes
import RunTable.Proofs.Relevance
import RunTable.Proofs.ValueOrder

/-!
# Rows as images of runs

A list request turns runs into rows, drops some of the rows, sorts them and cuts a page. The rows
change their shape on the way, and it is hard to say of a row at the end which run it was. So rows
are not followed at all: at each point the list of rows is the image of a list of runs under some
function, and each stage either changes the function or the list. A filter keeps some of the runs, a
sort rearranges them by what it sees of their images, and a stage that works row by row only
composes. At the end, which runs are on the page is a statement about the list alone.
-/

namespace RunTable

open Outcome

variable {collections : Collections} {filter : Option Json} {paging : Paging}
  {runs out : List Json} {g g' : Json → Json}

namespace Outcome

/-- A map over rows succeeds if the rows have images under a function that gives what it gives. -/
theorem mapM_eq_ok_map {f : Json → Except EvalError Json} : runs.mapM f = .ok out
    ↔ ∃ g : Json → Json, (∀ run ∈ runs, f run = .ok (g run)) ∧ out = runs.map g := by
  constructor
  · intro h
    have hforall := mapM_eq_ok.mp h
    refine ⟨fun run => (f run).toOption.getD .null, fun run hrun => ?_, ?_⟩
    · obtain ⟨i, hi⟩ := List.mem_iff_getElem?.mp hrun
      obtain ⟨row, -, hrow⟩ := getElem?_of_forall₂ hforall hi
      simp only [hrow, Except.toOption, Option.getD_some]
    · clear h
      induction hforall with
      | nil => rfl
      | cons hrow _ ih =>
          rw [List.map_cons, ← ih, hrow]
          rfl
  · rintro ⟨g, hg, rfl⟩
    exact mapM_ok hg

end Outcome

/-! ## Filters -/

/-- Whether a row passes a filter, if there is one. -/
def verdict (filter : Option Json) (row : Json) : Except EvalError Bool :=
  filter.elim (.ok true) fun f => Filter.holds f row

/-- Rows that are the same at each field of a filter get the same verdict. -/
theorem verdict_congr {row other : Json}
    (h : ∀ field ∈ (filter.elim .empty Filter.referencedFields).names,
      Document.SameAt (Path.segments field) row other) :
    verdict filter row = verdict filter other := by
  cases filter with
  | none => rfl
  | some f => exact Filter.holds_congr_of_referenced f h

theorem selectRows_ok {f : Json} {keeps : Json → Bool}
    (h : ∀ run ∈ runs, Filter.holds f (g run) = .ok (keeps run)) :
    selectRows f (runs.map g) = .ok ((runs.filter keeps).map g) := by
  induction runs with
  | nil => rfl
  | cons run runs ih =>
      have ih := ih fun r hr => h r (List.mem_cons_of_mem _ hr)
      rw [List.map_cons, selectRows, h run List.mem_cons_self, ok_bind, List.filter_cons, ih]
      cases keeps run <;> rfl

/-- A filter that succeeds has a verdict on each row. -/
theorem holds_of_selectRows {f : Json} (h : selectRows f (runs.map g) = .ok out) :
    ∀ run ∈ runs, ∃ b, Filter.holds f (g run) = .ok b := by
  induction runs generalizing out with
  | nil => exact fun run hrun => by cases hrun
  | cons run runs ih =>
      rw [List.map_cons, selectRows] at h
      obtain ⟨b, hb, hrest⟩ := bind_eq_ok.mp h
      intro r hr
      rcases List.mem_cons.mp hr with rfl | hr
      · exact ⟨b, hb⟩
      · cases b with
        | true =>
            obtain ⟨rest, hselect, -⟩ := bind_eq_ok.mp hrest
            exact ih hselect r hr
        | false => exact ih hrest r hr

theorem selectRows_eq_ok {f : Json} : selectRows f (runs.map g) = .ok out
    ↔ ∃ keeps : Json → Bool, (∀ run ∈ runs, Filter.holds f (g run) = .ok (keeps run))
      ∧ out = (runs.filter keeps).map g := by
  constructor
  · intro h
    choose! keeps hkeeps using holds_of_selectRows h
    rw [selectRows_ok hkeeps] at h
    exact ⟨keeps, hkeeps, (Except.ok.inj h).symm⟩
  · rintro ⟨keeps, hkeeps, rfl⟩
    exact selectRows_ok hkeeps

/-- A filter keeps the images of the runs whose images it lets pass. -/
theorem filtered_eq_ok : filter.elim (.ok (runs.map g)) (selectRows · (runs.map g)) = .ok out
    ↔ ∃ keeps : Json → Bool, (∀ run ∈ runs, verdict filter (g run) = .ok (keeps run))
      ∧ out = (runs.filter keeps).map g := by
  cases filter with
  | none =>
      constructor
      · intro h
        cases h
        exact ⟨fun _ => true, fun _ _ => rfl, by rw [List.filter_true]⟩
      · rintro ⟨keeps, hkeeps, rfl⟩
        have hall : ∀ run ∈ runs, keeps run = true := fun run hrun =>
          (Except.ok.inj (hkeeps run hrun)).symm
        rw [List.filter_eq_self.mpr hall]
        rfl
  | some f => exact selectRows_eq_ok

theorem run_filter (rows : List Json) :
    Pipeline.run collections (filter.map Stage.select).toList rows
      = filter.elim (.ok rows) (selectRows · rows) := by
  cases filter with
  | none => rfl
  | some f => exact Pipeline.run_single

theorem run_filter_eq_ok :
    Pipeline.run collections (filter.map Stage.select).toList (runs.map g) = .ok out
      ↔ ∃ keeps : Json → Bool, (∀ run ∈ runs, verdict filter (g run) = .ok (keeps run))
        ∧ out = (runs.filter keeps).map g := by
  rw [run_filter, filtered_eq_ok]

/-! ## Pages -/

/-- The runs on a page that is cut by what a sort sees of their images. -/
def Paging.page (paging : Paging) (g : Json → Json) (runs : List Json) : List Json :=
  ((runs.mergeSort fun a b => paging.spec.cmp (g a) (g b) != .gt).drop paging.skip).take
    paging.limit

theorem SortSpec.sort_map (spec : SortSpec) (g : Json → Json) (runs : List Json) :
    spec.sort (runs.map g) = (runs.mergeSort fun a b => spec.cmp (g a) (g b) != .gt).map g := by
  rw [sort, ← List.map_mergeSort]
  exact fun _ _ _ _ => rfl

theorem run_cutStages : Pipeline.run collections paging.cutStages (runs.map g)
    = .ok ((paging.page g runs).map g) := by
  have hskip : ∀ rows : List Json, Pipeline.run collections
      ((if 0 < paging.skip then [.skip paging.skip] else []) ++ [.limit paging.limit]) rows
        = .ok ((rows.drop paging.skip).take paging.limit) := by
    intro rows
    split
    · rfl
    · next hzero =>
        rw [Nat.eq_zero_of_not_pos hzero]
        rfl
  rw [Paging.cutStages, List.cons_append, Pipeline.run_cons_ok rfl, hskip, SortSpec.sort_map,
    ← List.map_drop, ← List.map_take]
  rfl

/-- Sorting and cutting never fail. -/
theorem run_cutStages_self (rows : List Json) :
    Pipeline.run collections paging.cutStages rows = .ok (paging.page id rows) := by
  have hrun : Pipeline.run collections paging.cutStages (rows.map id)
      = .ok ((paging.page id rows).map id) := run_cutStages
  rwa [List.map_id, List.map_id] at hrun

theorem Paging.mem_of_mem_page {run : Json} (h : run ∈ paging.page g runs) : run ∈ runs :=
  List.mem_mergeSort.mp (List.mem_of_mem_drop (List.mem_of_mem_take h))

theorem Paging.nodup_page (h : runs.Nodup) : (paging.page g runs).Nodup := by
  have hsort := (List.mergeSort_perm runs
    fun a b => paging.spec.cmp (g a) (g b) != .gt).nodup_iff.mpr h
  exact hsort.sublist ((List.take_sublist _ _).trans (List.drop_sublist _ _))

/-- Rows are sorted by the wanted field and by the identifier. -/
theorem Paging.keys_plan {sortField : Option String} {direction : Direction} {skip limit : Nat}
    {context : PagingContext} {key : String × Direction}
    (h : key ∈ (plan sortField direction skip limit context).spec.keys) :
    sortField = some key.1 ∨ key.1 = Field.id := by
  have hthen : ∀ (spec : SortSpec), key ∈ (spec.thenBy Field.id direction).keys →
      key ∈ spec.keys ∨ key.1 = Field.id := by
    intro spec hkey
    by_cases hid : Field.id ∈ Table.names spec.keys
    · rw [SortSpec.keys_thenBy_of_mem hid] at hkey
      exact .inl hkey
    · rw [SortSpec.keys_thenBy_of_not_mem hid] at hkey
      exact (List.mem_append.mp hkey).imp_right fun hlast =>
        congrArg Prod.fst (List.mem_singleton.mp hlast)
  rcases hthen _ h with hkey | hid
  · rw [SortSpec.keys_primary, List.mem_singleton] at hkey
    subst hkey
    cases sortField with
    | none => exact .inr rfl
    | some field => exact .inl rfl
  · exact .inr hid

theorem Paging.page_nil (paging : Paging) (g : Json → Json) : paging.page g [] = [] := by
  rw [page, List.mergeSort_nil, List.drop_nil, List.take_nil]

theorem Paging.page_single (hskip : paging.skip = 0) (hlimit : 0 < paging.limit) (g : Json → Json)
    (run : Json) : paging.page g [run] = [run] := by
  rw [page, List.mergeSort_singleton, hskip, List.drop_zero, List.take_of_length_le hlimit]

/-- A page that begins at the first row and is large enough holds all rows. -/
theorem Paging.perm_page (hskip : paging.skip = 0) (hlimit : runs.length ≤ paging.limit)
    (g : Json → Json) : (paging.page g runs).Perm runs := by
  rw [page, hskip, List.drop_zero, List.take_of_length_le (by rwa [List.length_mergeSort])]
  exact List.mergeSort_perm _ _

theorem Paging.length_page (hskip : paging.skip = 0) (hlimit : runs.length ≤ paging.limit)
    (g : Json → Json) : (paging.page g runs).length = runs.length :=
  (perm_page hskip hlimit g).length_eq

theorem Paging.page_congr (h : ∀ run ∈ runs, ∀ key ∈ paging.spec.keys,
    Document.getOrNull key.1 (g run) = Document.getOrNull key.1 (g' run)) :
    paging.page g runs = paging.page g' runs := by
  have hcmp : ∀ a ∈ runs, ∀ b ∈ runs, (paging.spec.cmp (g a) (g b) != .gt)
      = (paging.spec.cmp (g' a) (g' b) != .gt) := fun a ha b hb => by
    rw [SortSpec.cmp, SortSpec.cmp, SortSpec.cmpBy_congr (h a ha) (h b hb)]
  have hsort : (runs.mergeSort fun a b => paging.spec.cmp (g a) (g b) != .gt).map id
      = (runs.map id).mergeSort fun a b => paging.spec.cmp (g' a) (g' b) != .gt :=
    List.map_mergeSort hcmp
  rw [List.map_id, List.map_id] at hsort
  rw [page, page, hsort]

/-- A page stays as it is when it is sorted again, if no sort key has changed meanwhile. -/
theorem Paging.sort_page (h : ∀ run ∈ paging.page g runs, ∀ key ∈ paging.spec.keys,
    Document.getOrNull key.1 (g' run) = Document.getOrNull key.1 (g run)) :
    paging.spec.sort ((paging.page g runs).map g') = (paging.page g runs).map g' := by
  refine SortSpec.sort_of_pairwise (List.pairwise_map.mpr ?_)
  have hsorted := SortSpec.pairwise_sort paging.spec (runs.map g)
  rw [SortSpec.sort_map, List.pairwise_map] at hsorted
  have hpage : (paging.page g runs).Pairwise
      fun a b => (paging.spec.cmp (g a) (g b) != .gt) = true :=
    hsorted.sublist ((List.take_sublist _ _).trans (List.drop_sublist _ _))
  refine hpage.imp_of_mem fun ha hb hle => ?_
  rw [SortSpec.cmp, SortSpec.cmpBy_congr (h _ ha) (h _ hb)]
  exact hle

end RunTable
