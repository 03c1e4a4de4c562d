import Mathlib.Data.List.Find
import RunTable.Proofs.IntegerOrder
import RunTable.Proofs.JoinBlock
import RunTable.Proofs.ValueOrder

/-!
# What a metric column shows

The value of a column comes out of an expression over a table that was folded from entries, one for
each reference of the run. What it means can be said without either: follow the references to
series the request wants, take the last series found that has the column's name, and reduce its
values. A reduction is said by itself as well: the mean of a series is the sum of its numbers, in
order, by their count. The two are equal, failures included.

Two steps carry the proof. The table is written entry by entry, so a name in it holds what the last
entry of that name wrote, and an entry that found nothing has a name no column asks for. And a fold
that keeps a value until a better one comes ends at the first value that no other is better than,
because what replaces a value is better than all that the value had passed.
-/

namespace RunTable

open Outcome

namespace Json

/-! ## The first best value -/

variable {better : Json → Json → Bool}

/-- The first value that no other one is better than, null if there are no values. -/
def firstBest (better : Json → Json → Bool) (values : List Json) : Json :=
  (values.find? fun value => values.all fun other => !better other value).getD null

theorem best_append (values : List Json) (value : Json) (h : values ≠ []) :
    best better (values ++ [value])
      = if better value (best better values) then value else best better values := by
  cases values with
  | nil => exact absurd rfl h
  | cons first others =>
      rw [List.cons_append, best, best, List.foldl_append, List.foldl_cons, List.foldl_nil]

/-- The kept value is better than those before it, and none is better than it. -/
theorem best_split (hirrefl : ∀ a, better a a = false)
    (htrans : ∀ a b c, better a b = true → better b c = true → better a c = true)
    (hweak : ∀ a b c, better a b = true → better c b = false → better a c = true)
    {values : List Json} (h : values ≠ []) :
    ∃ before after, values = before ++ best better values :: after
      ∧ (∀ value ∈ before, better (best better values) value = true)
      ∧ ∀ value ∈ values, better value (best better values) = false := by
  induction values using List.reverseRecOn with
  | nil => exact absurd rfl h
  | append_singleton values value ih =>
      by_cases hvalues : values = []
      · subst hvalues
        refine ⟨[], [], rfl, ?_, ?_⟩
        · intro v hv
          cases hv
        · intro v hv
          rw [List.mem_singleton.mp hv]
          exact hirrefl value
      · obtain ⟨before, after, hsplit, hbefore, hall⟩ := ih hvalues
        rw [best_append values value hvalues]
        by_cases hbetter : better value (best better values) = true
        -- a new best value is better than all others, since none of them beats the old one
        · rw [if_pos hbetter]
          have hpassed : ∀ v ∈ values, better value v = true := fun v hv =>
            hweak value _ v hbetter (hall v hv)
          refine ⟨values, [], rfl, hpassed, fun v hv => ?_⟩
          rcases List.mem_append.mp hv with hv | hv
          · by_contra hnot
            have hself := htrans v value v (by simpa using hnot) (hpassed v hv)
            rw [hirrefl] at hself
            cases hself
          · rw [List.mem_singleton.mp hv]
            exact hirrefl value
        · rw [if_neg hbetter]
          refine ⟨before, after ++ [value], ?_, hbefore, fun v hv => ?_⟩
          · rw [← List.cons_append, ← List.append_assoc, ← hsplit]
          · rcases List.mem_append.mp hv with hv | hv
            · exact hall v hv
            · rw [List.mem_singleton.mp hv]
              simpa using hbetter

theorem best_eq_firstBest (hirrefl : ∀ a, better a a = false)
    (htrans : ∀ a b c, better a b = true → better b c = true → better a c = true)
    (hweak : ∀ a b c, better a b = true → better c b = false → better a c = true)
    (values : List Json) : best better values = firstBest better values := by
  by_cases h : values = []
  · subst h
    rfl
  · obtain ⟨before, after, hsplit, hbefore, hall⟩ := best_split hirrefl htrans hweak h
    have hfind : (values.find? fun value => values.all fun other => !better other value)
        = some (best better values) := by
      rw [List.find?_eq_some_iff_append]
      refine ⟨?_, before, after, hsplit, fun value hvalue => ?_⟩
      · rw [List.all_eq_true]
        intro value hvalue
        simp [hall value hvalue]
      · have hmem : best better values ∈ before ++ best better values :: after := by simp
        rw [← hsplit] at hmem
        rw [Bool.not_eq_true', List.all_eq_false]
        exact ⟨_, hmem, by simp [hbefore value hvalue]⟩
    rw [firstBest, hfind]
    rfl

theorem best_of_transCmp (order : Json → Json → Ordering) [Std.TransCmp order]
    (values : List Json) :
    best (fun a b => order a b == .lt) values = firstBest (fun a b => order a b == .lt) values := by
  refine best_eq_firstBest (fun a => ?_) (fun a b c hab hbc => ?_) (fun a b c hab hcb => ?_) values
  · have hself : order a a = .eq := Std.ReflCmp.compare_self
    rw [hself]
    rfl
  · rw [beq_iff_eq] at hab hbc ⊢
    exact Std.TransCmp.lt_trans hab hbc
  · rw [beq_iff_eq] at hab ⊢
    refine Std.TransCmp.lt_of_lt_of_isLE hab ?_
    have hswap : order b c = (order c b).swap := Std.OrientedCmp.eq_swap
    rw [hswap]
    cases hcase : order c b <;> simp_all

theorem best_lt (values : List Json) : best (fun a b => cmp a b == .lt) values
    = firstBest (fun a b => cmp a b == .lt) values := best_of_transCmp cmp values

theorem best_gt (values : List Json) : best (fun a b => cmp a b == .gt) values
    = firstBest (fun a b => cmp a b == .gt) values := by
  have hswap : (fun a b => cmp a b == .gt) = fun a b => cmp b a == .lt := by
    funext a b
    rw [cmp_swap a b]
    cases cmp b a <;> rfl
  rw [hswap]
  exact best_of_transCmp (fun a b => cmp b a) values

end Json

theorem MetricColumn.window_pos (column : MetricColumn) : 0 < column.window := by
  rw [window]
  omega

namespace MetricJoin

variable {collections : Collections} {names : List String} {collection series : String}
  {foreign runs before after rows : List Json} {run row : Json} {columns : List MetricColumn}
  {column : MetricColumn}

/-! ## What a cell means -/

/-- The series of a run that has a name: the last one that a reference refers to. -/
def seriesOf (names : List String) (foreign : List Json) (run : Json) (series : String) :
    Option Json :=
  ((wantedRefs names run).filterMap (resolve names foreign)).reverse.find? (isNamed [series])

/-- The elements of a series: the items of an array, and of a bare number that number. -/
def elements : Json → List Json
  | .arr items => items
  | .num n => [.num n]
  | _ => []

/-- The numbers among some values, in order. -/
def numbersOf (values : List Json) : List Number :=
  values.filterMap fun value =>
    match value with
    | .num n => some n
    | _ => none

/-- What doubles add up to when they are added to a machine number one after the other. -/
def sumFrom (start : Float) : List Double → Float
  | [] => start
  | x :: xs => sumFrom (start + Float.ofBits x.bits) xs

/-- A machine number as a value, null if it is infinite or no number. -/
def finiteOrNull (x : Float) : Json :=
  if h : x.toBits.toNat / Double.fractionBound % Double.exponentBound ≠ 2047 then
    .num (.double ⟨x.toBits, h⟩)
  else .null

/-- The mean of some numbers: their doubles are added up in order, from the neutral negative zero
on, and the sum is divided by how many there are. Null if there are none. -/
def meanOf (numbers : List Number) : Json :=
  if numbers.isEmpty then .null
  else finiteOrNull (sumFrom (Float.ofBits 0x8000000000000000) (numbers.map (·.toDouble))
    / Float.ofBits (Double.ofNat numbers.length).bits)

/-- How many of the last values count: as many as were asked for, but at least one, and one if
nothing was asked for. -/
def windowOf : Option Int → Nat
  | none => 1
  | some n => max 1 n.toNat

/-- The reduction of the values of a series. -/
def reduceValues (reduction : Reduction) (window : Nat) (values : Json) : Except EvalError Json :=
  match reduction, values with
  | .least, _ => .ok (Json.firstBest (fun a b => Json.cmp a b == .lt)
    ((numbersOf (elements values)).map .num))
  | .greatest, _ => .ok (Json.firstBest (fun a b => Json.cmp a b == .gt)
    ((numbersOf (elements values)).map .num))
  | .mean, _ => .ok (meanOf (numbersOf (elements values)))
  | .last, .null | .recentMean, .null => .ok .null
  | .last, .arr items => .ok (items.getLast?.getD .null)
  | .last, other => .error (.notArray "$size" other)
  | .recentMean, .arr items => .ok (meanOf (numbersOf (items.drop (items.length - window))))
  | .recentMean, other => .error (.notArray "$slice" other)

/-- The value of a column for a run. -/
def cell (names : List String) (foreign : List Json) (run : Json) (column : MetricColumn) :
    Except EvalError Json :=
  reduceValues column.reduction (windowOf column.lastN)
    (((seriesOf names foreign run column.series).bind (Json.member? "values")).getD .null)

/-! ## Reducing -/

theorem filter_isNumber (items : List Json) :
    items.filter Json.isNumber = (numbersOf items).map .num := by
  induction items with
  | nil => rfl
  | cons item items ih =>
      cases item with
      | num n =>
          rw [List.filter_cons_of_pos rfl, ih]
          rfl
      | _ =>
          rw [List.filter_cons_of_neg Bool.false_ne_true, ih]
          rfl

theorem numbers_eq (values : Json) :
    Json.numbers values = (numbersOf (elements values)).map .num := by
  cases values with
  | arr items => exact filter_isNumber items
  | _ => rfl

theorem sum_eq (xs : List Double) : Double.sum xs = sumFrom Double.negZero.toFloat xs := by
  have hfrom : ∀ start : Float,
      xs.foldl (fun acc x => acc + x.toFloat) start = sumFrom start xs := by
    induction xs with
    | nil => exact fun _ => rfl
    | cons x xs ih => exact fun start => ih (start + x.toFloat)
  exact hfrom _

theorem ofDouble?_ofFloat? (x : Float) : Json.ofDouble? (Double.ofFloat? x) = finiteOrNull x := by
  rw [Double.ofFloat?, Double.ofBits?, finiteOrNull]
  split <;> rfl

theorem mean_map_num (numbers : List Number) : Json.mean (numbers.map .num)
    = Json.ofDouble? (Double.mean? (numbers.map (·.toDouble))) := by
  have hdouble : Json.toDouble? ∘ Json.num = some ∘ Number.toDouble := rfl
  rw [Json.mean, List.filterMap_map, hdouble, List.filterMap_eq_map]

/-- The mean that an expression computes is the sum of the numbers by their count. -/
theorem mean_eq (numbers : List Number) : Json.mean (numbers.map .num) = meanOf numbers := by
  rw [mean_map_num]
  cases numbers with
  | nil => rfl
  | cons n ns =>
      have hmean : Double.mean? ((n :: ns).map Number.toDouble)
          = Double.ofFloat? (Double.sum ((n :: ns).map Number.toDouble)
            / (Double.ofNat ((n :: ns).map Number.toDouble).length).toFloat) := rfl
      rw [hmean, ofDouble?_ofFloat?, sum_eq, List.length_map]
      rfl

theorem meanOf_eq {numbers : List Number} {x : Double}
    (h : Double.mean? (numbers.map (·.toDouble)) = some x) : meanOf numbers = .double x := by
  rw [← mean_eq, mean_map_num, h]
  rfl

theorem toNat_window (column : MetricColumn) : column.window.toNat = windowOf column.lastN := by
  rw [MetricColumn.window]
  cases column.lastN with
  | none => rfl
  | some n =>
      rw [Option.getD_some, windowOf]
      omega

theorem elementAt_last (items : List Json) :
    (Json.elementAt? items (-1)).getD .null = items.getLast?.getD .null := by
  cases items with
  | nil => rfl
  | cons first rest =>
      rw [Json.elementAt?, if_neg (by decide), if_pos (by simp), List.getLast?_eq_getElem?]
      rfl

/-- Comparing the length of an array with zero tells whether it has a last item. -/
theorem above_length (items : List Json) :
    (Json.cmp (.nat items.length) (.int 0) == .gt) = !items.isEmpty := by
  cases items with
  | nil => decide
  | cons first rest =>
      have hpos : 0 < (Double.ofNat (first :: rest).length).key := Double.key_ofNat_pos (by simp)
      have hcmp : Json.cmp (.nat (first :: rest).length) (.int 0)
          = compare (Double.ofNat (first :: rest).length).key 0 := rfl
      rw [hcmp, Int.compare_eq_gt.mpr hpos]
      rfl

/-- The expression of a reduction computes it. -/
theorem eval_reduce {values : Expr} {value : Json} (reduction : Reduction) {window : Int}
    (hwindow : 0 < window) (h : values.eval row = .ok value) :
    (reduce reduction window values).eval row = reduceValues reduction window.toNat value := by
  cases reduction with
  | least =>
      rw [reduce, Expr.eval, h, ok_bind, Unary.apply, Json.best_lt, numbers_eq]
      rfl
  | greatest =>
      rw [reduce, Expr.eval, h, ok_bind, Unary.apply, Json.best_gt, numbers_eq]
      rfl
  | mean =>
      rw [reduce, Expr.eval, h, ok_bind, Unary.apply, numbers_eq, mean_eq]
      rfl
  | last =>
      -- the length is asked for first, so a value that is no array fails there
      simp only [reduce, Expr.above, Expr.null, Expr.eval, h, ok_bind]
      cases value with
      | null => rfl
      | arr items =>
          have hlength : Unary.apply .size (.arr items) = .ok (.nat items.length) := rfl
          simp only [Json.isNull, Bool.false_eq_true, if_false, pure_bind, hlength, ok_bind,
            Binary.apply, above_length, Json.truthy]
          cases items with
          | nil => rfl
          | cons first rest => simp [Unary.apply, reduceValues, elementAt_last]
      | _ => rfl
  | recentMean =>
      rw [reduce, Expr.eval, Expr.eval, h, ok_bind]
      cases value with
      | null => rfl
      | arr items =>
          have hslice : Json.slice items (-window) = items.drop (items.length - window.toNat) := by
            rw [Json.slice, if_neg (by omega), Int.natAbs_neg]
            congr 2
            omega
          rw [Unary.apply, ok_bind, hslice, Unary.apply, numbers_eq, mean_eq]
          rfl
      | _ => rfl

/-! ## Reading the table -/

theorem lookup_entries {ts : List (Option Json)} (hseries : series ≠ unmatchedName)
    (hname : ∀ target ∈ ts, ∀ doc, target = some doc →
      ∃ name, doc.member? "name" = some (.str name)) :
    (ts.map entryOf).lookup series = (ts.filterMap id).find? (isNamed [series]) := by
  induction ts with
  | nil => rfl
  | cons target ts ih =>
      have ih := ih fun t ht => hname t (List.mem_cons_of_mem _ ht)
      cases target with
      | none =>
          have hb : (series == unmatchedName) = false := by simpa using hseries
          rw [List.map_cons, List.lookup_cons, show (entryOf none).1 = unmatchedName from rfl, hb,
            List.filterMap_cons_none (f := id) rfl]
          exact ih
      | some doc =>
          -- an entry stands under the name of its series, so a look-up is a search by name
          obtain ⟨name, hdoc⟩ := hname _ List.mem_cons_self doc rfl
          have hentry : entryOf (some doc) = (name, doc) := by simp [entryOf, hdoc, Json.str?]
          have hnamed : isNamed [series] doc = (series == name) := by
            rw [isNamed, hdoc, Bool.eq_iff_iff, beq_iff_eq, Option.bind_some, Json.str?,
              Option.any_some, List.contains_iff_mem, List.mem_singleton]
            exact eq_comm
          rw [List.map_cons, hentry, List.lookup_cons, List.filterMap_cons_some (f := id) rfl,
            List.find?_cons, hnamed]
          cases series == name with
          | true => rfl
          | false => exact ih

theorem filterMap_targets (names : List String) (foreign : List Json) (run : Json) :
    (targets names foreign run).filterMap id
      = (wantedRefs names run).filterMap (resolve names foreign) := by
  rw [targets]
  split
  · next hrefs =>
      rw [hrefs]
      rfl
  · rw [List.filterMap_map]
    rfl

/-- Under a name of a series, the table holds the last series of that name. -/
theorem lookup_table (hseries : series ≠ unmatchedName) :
    (table names foreign run).lookup series = seriesOf names foreign run series := by
  rw [table, Table.lookup_ofList, ← List.map_reverse, lookup_entries hseries, seriesOf,
    ← filterMap_targets, List.filterMap_reverse]
  intro target htarget doc hdoc
  exact (name_of_mem_targets (List.mem_reverse.mp htarget) hdoc).imp fun _ => And.left

theorem getOrNull_withTable (h : run.members.lookup tableField = none) :
    Document.getOrNull tableField (withTable names foreign run)
      = .obj (table names foreign run) := by
  rw [Document.getOrNull, withTable, Document.get?_name_obj segments_tableField,
    Table.lookup_append_self h]
  rfl

/-- The expression of a column computes its cell from the table. -/
theorem eval_columnExpr_of_table
    (htable : Document.getOrNull tableField row = .obj (table names foreign run))
    (hseries : column.series ≠ unmatchedName) :
    (columnExpr column).eval row = cell names foreign run column := by
  rw [cell, ← toNat_window]
  refine eval_reduce column.reduction column.window_pos ?_
  simp only [Expr.member, Expr.eval, htable, ok_bind, Unary.apply, Json.member?,
    lookup_table hseries]
  cases seriesOf names foreign run column.series <;> rfl

theorem eval_columnExpr (htable : run.members.lookup tableField = none)
    (hseries : column.series ≠ unmatchedName) :
    (columnExpr column).eval (withTable names foreign run) = cell names foreign run column :=
  eval_columnExpr_of_table (getOrNull_withTable htable) hseries

/-- It reads nothing else. -/
theorem eval_columnExpr_congr {other : Json}
    (h : Document.getOrNull tableField row = Document.getOrNull tableField other) :
    (columnExpr column).eval row = (columnExpr column).eval other := by
  have hvalues : (Expr.member "values" (.member column.series (.field tableField))).eval row
      = (Expr.member "values" (.member column.series (.field tableField))).eval other := by
    simp only [Expr.member, Expr.eval, h]
  rw [columnExpr]
  cases column.reduction <;>
    simp only [reduce, Expr.above, Expr.null, Expr.eval, hvalues]

/-- The table of a run depends on its references alone. -/
theorem table_congr {other : Json} (h : Document.getOrNull Field.metricRefs run
    = Document.getOrNull Field.metricRefs other) :
    table names foreign run = table names foreign other := by
  have hrefs : wantedRefs names run = wantedRefs names other := by
    rw [wantedRefs, wantedRefs, h]
  rw [table, table, targets, targets, hrefs]

/-- The cells of some columns for a run, under the names of the columns. -/
def CellsOf (names : List String) (foreign : List Json) (run : Json) (columns : List MetricColumn)
    (cells : List (String × Json)) : Prop :=
  List.Forall₂ (fun column entry =>
    entry.1 = column.name ∧ cell names foreign run column = .ok entry.2) columns cells

theorem CellsOf.names_eq {cells : List (String × Json)}
    (h : CellsOf names foreign run columns cells) :
    Table.names cells = columns.map (·.name) := by
  induction h with
  | nil => rfl
  | cons hentry _ ih => rw [Table.names_cons, List.map_cons, hentry.1, ih]

theorem CellsOf.exists_mem {cells : List (String × Json)}
    (h : CellsOf names foreign run columns cells) (hcolumn : column ∈ columns) :
    ∃ value, cell names foreign run column = .ok value ∧ (column.name, value) ∈ cells := by
  obtain ⟨i, hi⟩ := List.mem_iff_getElem?.mp hcolumn
  obtain ⟨⟨_, value⟩, hentry, rfl, hvalue⟩ := getElem?_of_forall₂ h hi
  exact ⟨value, hvalue, List.mem_of_getElem? hentry⟩

theorem CellsOf.congr {others : List String} {other : Json} {cells : List (String × Json)}
    (h : CellsOf names foreign run columns cells)
    (hcell : ∀ column ∈ columns,
      cell names foreign run column = cell others foreign other column) :
    CellsOf others foreign other columns cells :=
  forall₂_imp_of_mem h fun column hcolumn _ hentry =>
    ⟨hentry.1, (hcell column hcolumn).symm.trans hentry.2⟩

/-- The metric columns of a join are computed to the cells of the run whose table a row has. -/
theorem evalFields_columns_of_table
    (htable : Document.getOrNull tableField row = .obj (table names foreign run))
    (hseries : ∀ column ∈ columns, column.series ≠ unmatchedName)
    {cells : List (String × Json)} :
    Expr.evalFields (columnFields columns) row = .ok cells
      ↔ CellsOf names foreign run columns cells := by
  have hcell : ∀ column ∈ columns, (columnExpr column).eval row = cell names foreign run column :=
    fun column hcolumn => eval_columnExpr_of_table htable (hseries column hcolumn)
  rw [evalFields_eq_ok, columnFields, List.forall₂_map_left_iff, CellsOf]
  constructor
  · exact fun hall => forall₂_imp_of_mem hall fun column hcolumn _ hentry =>
      ⟨hentry.1, (hcell column hcolumn).symm.trans hentry.2⟩
  · exact fun hall => forall₂_imp_of_mem hall fun column hcolumn _ hentry =>
      ⟨hentry.1, (hcell column hcolumn).trans hentry.2⟩

theorem evalFields_columns (h : IsRun run)
    (hseries : ∀ column ∈ columns, column.series ≠ unmatchedName)
    {cells : List (String × Json)} :
    Expr.evalFields (columnFields columns) (withTable names foreign run) = .ok cells
      ↔ CellsOf names foreign run columns cells :=
  evalFields_columns_of_table (getOrNull_withTable (h.lookup_eq_none (by simp))) hseries

/-- A join writes the cells of its columns into a run, and fails where one of them does. -/
theorem joinRow_eq_ok (h : IsRun run)
    (hseries : ∀ column ∈ columns, column.series ≠ unmatchedName) :
    joinRow columns foreign run = .ok row ↔
      ∃ cells, CellsOf (seriesNames columns).names foreign run columns cells
        ∧ row = Document.setAll cells (withTable (seriesNames columns).names foreign run) := by
  rw [joinRow, computeFields_eq_ok]
  exact exists_congr fun cells => and_congr_left fun _ => evalFields_columns h hseries

/-! ## Cells and the columns beside them

Which series are looked up depends on all columns of a request, so another column can change what a
reference finds. It does not change a cell if the references of the run are labelled right. -/

def refsOf (run : Json) : List Json :=
  match Document.getOrNull Field.metricRefs run with
  | .arr items => items
  | _ => []

/-- Whether a reference gives the identifier of a series. -/
def refersTo (ref doc : Json) : Bool :=
  (ref.member? "id").any fun id =>
    !id.isNull && (doc.member? Field.id).any (Json.equal · id)

/-- The references of a run have a name exactly if the series that they refer to have it. -/
def Labelled (foreign : List Json) (name : String) (run : Json) : Prop :=
  ∀ ref ∈ refsOf run, ∀ doc ∈ foreign, refersTo ref doc = true →
    isNamed [name] doc = isNamed [name] ref

instance (foreign : List Json) (name : String) (run : Json) :
    Decidable (Labelled foreign name run) :=
  inferInstanceAs (Decidable (∀ ref ∈ refsOf run, ∀ doc ∈ foreign, refersTo ref doc = true →
    isNamed [name] doc = isNamed [name] ref))

theorem wantedRefs_eq (names : List String) (run : Json) :
    wantedRefs names run = (refsOf run).filter (isNamed names) := by
  rw [wantedRefs, refsOf]
  cases Document.getOrNull Field.metricRefs run <;> rfl

theorem resolve_eq (names : List String) (foreign : List Json) (ref : Json) :
    resolve names foreign ref = foreign.find? fun doc => refersTo ref doc && isNamed names doc := by
  have hnone : ∀ p : Json → Bool, (∀ doc, p doc = false) → foreign.find? p = none := fun p hp =>
    List.find?_eq_none.mpr fun doc _ => by simp [hp doc]
  rw [resolve]
  cases hid : ref.member? "id" with
  | none =>
      rw [hnone _ fun doc => by rw [refersTo, hid]; rfl]
      rfl
  | some id =>
      cases id with
      | null =>
          rw [hnone _ fun doc => by rw [refersTo, hid]; rfl]
          rfl
      | _ =>
          simp only [refersTo, hid, Option.any_some, Json.isNull, Bool.not_false, Bool.true_and,
            Option.getD_some]
          rfl

theorem mem_seriesNames (h : column ∈ columns) : column.series ∈ (seriesNames columns).names :=
  NameSet.mem_ofList.mpr (List.mem_map_of_mem h)

theorem isNamed_of_mem {name : String} {doc : Json} (hname : name ∈ names)
    (h : isNamed [name] doc = true) : isNamed names doc = true := by
  rw [isNamed, Option.any_eq_true] at h ⊢
  obtain ⟨text, htext, hmem⟩ := h
  rw [List.contains_iff_mem, List.mem_singleton] at hmem
  exact ⟨text, htext, by rw [List.contains_iff_mem, hmem]; exact hname⟩

/-- Where the wanted references are labelled right, the series of a name is found whatever else is
wanted. -/
theorem seriesOf_eq_of_wanted (hseries : series ∈ names)
    (h : ∀ ref ∈ wantedRefs names run, ∀ doc ∈ foreign, refersTo ref doc = true →
      isNamed [series] doc = isNamed [series] ref) :
    seriesOf names foreign run series = seriesOf [series] foreign run series := by
  suffices hfilter : ((wantedRefs names run).filterMap (resolve names foreign)).filter
        (isNamed [series])
      = ((wantedRefs [series] run).filterMap (resolve [series] foreign)).filter
        (isNamed [series]) by
    rw [seriesOf, seriesOf, ← List.head?_filter, ← List.head?_filter, List.filter_reverse,
      List.filter_reverse, hfilter]
  rw [wantedRefs_eq] at h
  rw [wantedRefs_eq, wantedRefs_eq, List.filterMap_filter, List.filterMap_filter,
    List.filter_filterMap, List.filter_filterMap]
  refine List.filterMap_congr fun ref href => ?_
  by_cases hnamed : isNamed [series] ref = true
  · -- a reference of the name finds the same series, since all that it can find have the name
    have hwanted : isNamed names ref = true := isNamed_of_mem hseries hnamed
    have hfind : resolve names foreign ref = resolve [series] foreign ref := by
      rw [resolve_eq, resolve_eq]
      refine List.find?_congr fun doc hdoc => ?_
      cases hrefers : refersTo ref doc with
      | false => rfl
      | true =>
          have hdocNamed :=
            (h ref (List.mem_filter.mpr ⟨href, hwanted⟩) doc hdoc hrefers).trans hnamed
          rw [hdocNamed, isNamed_of_mem hseries hdocNamed]
    rw [if_pos hnamed, if_pos hwanted, hfind]
  · -- a reference of another name finds nothing of the name
    rw [if_neg hnamed]
    cases hfound : (if isNamed names ref = true then resolve names foreign ref else none) with
    | none => rfl
    | some doc =>
        obtain ⟨hwanted, hresolve⟩ : isNamed names ref = true
            ∧ resolve names foreign ref = some doc := by
          split at hfound
          · next hwanted => exact ⟨hwanted, hfound⟩
          · cases hfound
        rw [resolve_eq] at hresolve
        have hrefers := List.find?_some hresolve
        rw [Bool.and_eq_true] at hrefers
        have hdoc := h ref (List.mem_filter.mpr ⟨href, hwanted⟩) doc
          (List.mem_of_find?_eq_some hresolve) hrefers.1
        rw [Option.filter_some, if_neg (by rw [hdoc]; exact hnamed)]
        rfl

theorem cell_eq_of_wanted (hseries : column.series ∈ names)
    (h : ∀ ref ∈ wantedRefs names run, ∀ doc ∈ foreign, refersTo ref doc = true →
      isNamed [column.series] doc = isNamed [column.series] ref) :
    cell names foreign run column = cell [column.series] foreign run column := by
  rw [cell, cell, seriesOf_eq_of_wanted hseries h]

theorem cell_eq_of_labelled (hseries : column.series ∈ names)
    (h : Labelled foreign column.series run) :
    cell names foreign run column = cell [column.series] foreign run column := by
  refine cell_eq_of_wanted hseries fun ref href => h ref ?_
  rw [wantedRefs_eq] at href
  exact (List.mem_filter.mp href).1

/-- A column is computed alike for documents with the same references, whatever series are looked up
besides, if its references are labelled right. -/
theorem eval_columnExpr_withTable {others : List String} {other : Json} (h : IsRun run)
    (h' : IsRun other) (hrefs : Document.getOrNull Field.metricRefs run
      = Document.getOrNull Field.metricRefs other)
    (hnames : names = others ∨ column.series ≠ unmatchedName ∧ column.series ∈ names
      ∧ column.series ∈ others ∧ Labelled foreign column.series other) :
    (columnExpr column).eval (withTable names foreign run)
      = (columnExpr column).eval (withTable others foreign other) := by
  have htable : run.members.lookup tableField = none := h.lookup_eq_none (by simp)
  have htable' : other.members.lookup tableField = none := h'.lookup_eq_none (by simp)
  have hsame : (columnExpr column).eval (withTable names foreign run)
      = (columnExpr column).eval (withTable names foreign other) := by
    refine eval_columnExpr_congr ?_
    rw [getOrNull_withTable htable, getOrNull_withTable htable', table_congr hrefs]
  rw [hsame]
  rcases hnames with rfl | ⟨hseries, hmem, hmem', hlabelled⟩
  · rfl
  · rw [eval_columnExpr htable' hseries, eval_columnExpr htable' hseries,
      cell_eq_of_labelled hmem hlabelled, cell_eq_of_labelled hmem' hlabelled]

/-! ## Cells in rows -/

theorem writable_of_undotted {paths : List String} {doc : Json} (hdoc : ∃ ms, doc = .obj ms)
    (h : ∀ path ∈ paths, '.' ∉ path.toList) : Document.Writable paths doc where
  clear := fun path hpath => by
    obtain ⟨ms, rfl⟩ := hdoc
    rw [Path.segments_of_undotted (h path hpath)]
    exact Document.clear_single ms
  level := fun p hp q hq hpre => by
    rw [Path.segments_of_undotted (h p hp), Path.segments_of_undotted (h q hq)] at hpre
    exact (List.cons_prefix_cons.mp hpre).1

/-- The cells of a join are what they mean. The row of a run that shares its identifier with no
other stands behind those of the identifiers before it; under the name of each column it holds the
value of the cell, and under any other name what the run holds. -/
theorem join_shows_cells (collections : Collections) (collection : String)
    (columns : List MetricColumn) {before after rows : List Json} {run : Json} (hrun : IsRun run)
    (hothers : ∀ other ∈ before ++ after,
      (Table.names other.members).Nodup ∧ (idOf other).text ≠ (idOf run).text)
    (hnames : (columns.map (·.name)).Nodup)
    (hundotted : ∀ column ∈ columns, '.' ∉ column.name.toList)
    (hseries : ∀ column ∈ columns, column.series ≠ unmatchedName)
    (hrows : Pipeline.run collections (stages columns collection) (before ++ run :: after)
      = .ok rows) :
    ∃ row, rows[(keyTexts idOf before).length]? = some row
      ∧ (∀ column ∈ columns, ∃ value,
        cell (seriesNames columns).names (collections collection) run column = .ok value
          ∧ row.member? column.name = some value)
      ∧ ∀ name, name ≠ tableField → name ∉ columns.map (·.name) →
        row.member? name = run.member? name := by
  obtain ⟨row, hrow, hjoined⟩ := row_of_stages hrun hothers hrows
  refine ⟨row, hrow, fun column hcolumn => ?_, fun name hname hnot => ?_⟩
  · obtain ⟨cells, hcells, rfl⟩ := (joinRow_eq_ok hrun hseries).mp hjoined
    obtain ⟨value, hvalue, hmem⟩ := hcells.exists_mem hcolumn
    refine ⟨value, hvalue, ?_⟩
    have hwritable : Document.Writable (Table.names cells)
        (withTable (seriesNames columns).names (collections collection) run) := by
      refine writable_of_undotted ⟨_, rfl⟩ fun path hpath => ?_
      rw [hcells.names_eq] at hpath
      obtain ⟨other, hother, rfl⟩ := List.mem_map.mp hpath
      exact hundotted other hother
    have hread := Document.get?_setAll hwritable (Table.mem_names hmem) fun _ hwrite =>
      Table.eq_of_mem (hcells.names_eq ▸ hnames) hmem hwrite
    obtain ⟨ms, hms⟩ : ∃ ms, Document.setAll cells
        (withTable (seriesNames columns).names (collections collection) run) = .obj ms :=
      Document.setAll_isObject ⟨_, rfl⟩ cells
    rw [hms, Document.get?_name_obj (Path.segments_of_undotted (hundotted column hcolumn))] at hread
    rw [hms]
    exact hread
  · refine member?_joinRow hname (fun column hcolumn => ?_) hjoined
    rw [Path.segments_of_undotted (hundotted column hcolumn)]
    intro heq
    exact hnot (List.mem_map.mpr ⟨column, hcolumn, Option.some.inj heq⟩)

/-- A run with a stale reference and two valid ones, the last of which is to a series whose first
value is no number, and a column for each reduction. A mean of the last few takes at least one. -/
theorem join_shows_cells_of_last :
    let run := Json.obj [("_id", .int 2), ("info", .single "metrics" (.arr [
      .obj [("name", .str "loss"), ("id", .int 9)],
      .obj [("name", .str "loss"), ("id", .int 5)],
      .obj [("name", .str "loss"), ("id", .int 7)]]))]
    let stored := [
      Json.obj [("_id", .int 7), ("name", .str "loss"),
        ("values", .arr [.str "x", .int 1, .int 3, .int 2])],
      .obj [("_id", .int 5), ("name", .str "loss"), ("values", .arr [.int 9])]]
    let shown : List (MetricColumn × Json) := [
      (⟨"low", "loss", .least, none⟩, .int 1),
      (⟨"high", "loss", .greatest, none⟩, .int 3),
      (⟨"mean", "loss", .mean, none⟩, .double { bits := 0x4000000000000000 }),
      (⟨"final", "loss", .last, none⟩, .int 2),
      (⟨"recent", "loss", .recentMean, some 2⟩, .double { bits := 0x4004000000000000 }),
      (⟨"latest", "loss", .recentMean, some (-4)⟩, .double { bits := 0x4000000000000000 })]
    let columns := shown.map (·.1)
    ∃ rows row, Pipeline.run (fun _ => stored) (stages columns "metrics")
        ([.obj [("_id", .int 1)]] ++ run :: [.obj []]) = .ok rows
      ∧ rows[1]? = some row
      ∧ ∀ entry ∈ shown, row.member? entry.1.name = some entry.2 := by
  intro run stored shown columns
  have hsome : (Pipeline.run (fun _ => stored) (stages columns "metrics")
      ([.obj [("_id", .int 1)]] ++ run :: [.obj []])).toOption.isSome = true := by decide
  obtain ⟨rows, hrows⟩ := isSome_toOption_iff.mp hsome
  obtain ⟨row, hrow, hcells, -⟩ := join_shows_cells (fun _ => stored) "metrics" columns
    (by decide) (by decide) (by decide) (by decide) (by decide) hrows
  refine ⟨rows, row, hrows, hrow, fun entry hentry => ?_⟩
  obtain ⟨value, hvalue, hread⟩ := hcells entry.1 (List.mem_map_of_mem hentry)
  have hmean : meanOf [.int 1, .int 3, .int 2] = .double { bits := 0x4000000000000000 } :=
    meanOf_eq (by decide)
  have hrecent : meanOf [.int 3, .int 2] = .double { bits := 0x4004000000000000 } :=
    meanOf_eq (by decide)
  have hlatest : meanOf [.int 2] = .double { bits := 0x4000000000000000 } := meanOf_eq (by decide)
  have hvalues : shown.map (fun entry => cell ["loss"] stored run entry.1)
      = shown.map fun entry => .ok entry.2 := by
    have hmeans : shown.map (fun entry => cell ["loss"] stored run entry.1)
        = [.ok (.int 1), .ok (.int 3), .ok (meanOf [.int 1, .int 3, .int 2]), .ok (.int 2),
          .ok (meanOf [.int 3, .int 2]), .ok (meanOf [.int 2])] := rfl
    rw [hmeans, hmean, hrecent, hlatest]
    rfl
  have hcell : cell ["loss"] stored run entry.1 = .ok entry.2 :=
    List.map_inj_left.mp hvalues entry hentry
  cases hvalue.symm.trans hcell
  exact hread

end MetricJoin

end RunTable
