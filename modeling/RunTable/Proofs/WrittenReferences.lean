import RunTable.Expr.Render
import RunTable.Plan.MetricJoin
import RunTable.Proofs.Groups
import RunTable.Proofs.NumberText
import RunTable.Proofs.Tables

/-!
# What a written expression refers to

In the written form of an expression, a text that begins with `$` refers to a field or a variable. A
constant text may begin with it as well, and then it has to stand under a member `$literal`, whose
value is taken as it is.

To see whether each constant does, all texts of either kind are listed, node by node, with who
holds them and whether they are wrapped, and the list is compared with the one that is taken of the
written value alone. The two agree. So an expression is written with its own references and no
others exactly if it has no constant that begins with `$` outside a wrapper, and there are three
places for one: the name of a member, the values of a selection and the items of a constant array.
The series of a metric column gets into the first two.
-/

namespace RunTable

/-- Whether members are those of a wrapper: one alone, whose name says that its value is taken as it
is. -/
def Table.isWrapper {α : Type} (members : List (String × α)) : Bool :=
  names members == ["$literal"]

namespace Json

mutual

/-- The texts in a value that begin with `$`, in order, each with whether it stands under a wrapper.
The first argument says whether the whole value does. -/
def marks (wrapped : Bool) : Json → List (String × Bool)
  | str text => if Expr.isReference text then [(text, wrapped)] else []
  | arr items => itemMarks wrapped items
  | obj members => memberMarks (wrapped || Table.isWrapper members) members
  | _ => []
termination_by structural value => value

def itemMarks (wrapped : Bool) : List Json → List (String × Bool)
  | [] => []
  | item :: items => marks wrapped item ++ itemMarks wrapped items
termination_by structural items => items

def memberMarks (wrapped : Bool) : List (String × Json) → List (String × Bool)
  | [] => []
  | (_, value) :: members => marks wrapped value ++ memberMarks wrapped members
termination_by structural members => members

end

/-- The texts in a written value that refer to something: they begin with `$` and stand under no
wrapper. -/
def references (value : Json) : List String :=
  ((value.marks false).filter fun mark => !mark.2).map (·.1)

end Json

/-- A text that begins with `$` in an expression. -/
structure Mark where
  text : String
  /-- Whether a constant holds the text, so that no reference is meant. -/
  isConstant : Bool
  /-- Whether the text is written under a wrapper. -/
  isWrapped : Bool
deriving DecidableEq

namespace Mark

/-- What is seen of a text in the written form. -/
def shown (mark : Mark) : String × Bool := (mark.text, mark.isWrapped)

/-- Whether a text is no constant or stands under a wrapper, so that it is read as it is meant. -/
def isSafe (mark : Mark) : Bool := !mark.isConstant || mark.isWrapped

/-- The texts of a constant that is written as it is. -/
def ofConstant (wrapped : Bool) (value : Json) : List Mark :=
  (value.marks wrapped).map fun mark => ⟨mark.1, true, mark.2⟩

/-- The text of a reference. -/
def ofReference (wrapped : Bool) (text : String) : List Mark := [⟨text, false, wrapped⟩]

/-- The texts of a constant that is an expression by itself: texts and objects are wrapped. -/
def ofLiteral (wrapped : Bool) : Json → List Mark
  | .str text => ofConstant true (.str text)
  | .obj members => ofConstant true (.obj members)
  | value => ofConstant wrapped value

end Mark

/-- The texts of an operator and of its argument. -/
def Unary.marks (wrapped : Bool) : Unary → List Mark → List Mark
  | member name, argument => Mark.ofConstant wrapped (.str name) ++ argument
  | withMember name values, argument =>
    argument ++ Mark.ofReference wrapped ("$$" ++ itemVariable ++ "." ++ name)
      ++ Mark.ofConstant wrapped (.arr values)
  | _, argument => argument

namespace Expr

mutual

/-- The texts in an expression that begin with `$`, in the order in which they are written. The
first argument says whether the whole expression stands under a wrapper. -/
def marks (wrapped : Bool) : Expr → List Mark
  | field path => Mark.ofReference wrapped ("$" ++ path)
  | root => Mark.ofReference wrapped "$$ROOT"
  | literal value => Mark.ofLiteral wrapped value
  | instant _ => []
  | unary operator argument => operator.marks wrapped (marks wrapped argument)
  | binary _ left right => marks wrapped left ++ marks wrapped right
  | ifNull value fallback => marks wrapped value ++ marks wrapped fallback
  | cond test yes no => marks wrapped test ++ marks wrapped yes ++ marks wrapped no
  | all terms => termMarks wrapped terms
  | merge parts => termMarks wrapped parts
  | object fields =>
    let inside := wrapped || Table.isWrapper (Table.ofList fields)
    (Table.ofList (fieldMarks inside fields)).flatMap (·.2)
termination_by structural expr => expr

def termMarks (wrapped : Bool) : List Expr → List Mark
  | [] => []
  | expr :: exprs => marks wrapped expr ++ termMarks wrapped exprs
termination_by structural exprs => exprs

def fieldMarks (wrapped : Bool) : List (String × Expr) → List (String × List Mark)
  | [] => []
  | (name, expr) :: fields => (name, marks wrapped expr) :: fieldMarks wrapped fields
termination_by structural fields => fields

end

/-- The texts of the references of an expression that stand under no wrapper. -/
def references (expr : Expr) : List String :=
  ((expr.marks false).filter fun mark => !mark.isConstant && !mark.isWrapped).map (·.text)

/-- Whether all constants of an expression that begin with `$` are written under wrappers. -/
def wrapsConstants (expr : Expr) : Bool := (expr.marks false).all Mark.isSafe

mutual

/-- Whether an object that the expression builds is written as if it were a wrapper. -/
def buildsWrapper : Expr → Bool
  | unary _ argument => buildsWrapper argument
  | binary _ left right => buildsWrapper left || buildsWrapper right
  | ifNull value fallback => buildsWrapper value || buildsWrapper fallback
  | cond test yes no => buildsWrapper test || buildsWrapper yes || buildsWrapper no
  | all terms => termsBuildWrapper terms
  | merge parts => termsBuildWrapper parts
  | object fields => Table.isWrapper (Table.ofList fields) || fieldsBuildWrapper fields
  | _ => false
termination_by structural expr => expr

def termsBuildWrapper : List Expr → Bool
  | [] => false
  | expr :: exprs => buildsWrapper expr || termsBuildWrapper exprs
termination_by structural exprs => exprs

def fieldsBuildWrapper : List (String × Expr) → Bool
  | [] => false
  | (_, expr) :: fields => buildsWrapper expr || fieldsBuildWrapper fields
termination_by structural fields => fields

end

end Expr

/-- The expressions of a stage, in the order in which they are written. -/
def Stage.exprs : Stage → List Expr
  | compute fields => fields.map (·.2)
  | group key fields => key :: fields.map (·.2.value)
  | replaceRoot value => [value]
  | _ => []

/-! ## The written value -/

namespace Json

variable {name : String} {wrapped : Bool}

theorem memberMarks_eq (members : List (String × Json)) :
    memberMarks wrapped members
      = (members.map (Prod.map id (marks wrapped))).flatMap (·.2) := by
  induction members with
  | nil => rfl
  | cons member members ih =>
      rw [memberMarks, ih]
      rfl

theorem marks_obj {members : List (String × Json)} (h : Table.isWrapper members = false) :
    (obj members).marks wrapped = memberMarks wrapped members := by
  rw [marks, h, Bool.or_false]

/-- The argument of an operator is wrapped only as the whole is. -/
theorem marks_single (h : name ≠ "$literal") (value : Json) :
    (single name value).marks wrapped = value.marks wrapped := by
  have hwrapper : Table.isWrapper [(name, value)] = false := by
    simpa [Table.isWrapper, Table.names] using h
  rw [single, marks_obj hwrapper, memberMarks, memberMarks, List.append_nil]

theorem marks_wrapper (value : Json) :
    (single "$literal" value).marks wrapped = value.marks true := by
  have hwrapper : Table.isWrapper [("$literal", value)] = true := rfl
  rw [single, marks, hwrapper, Bool.or_true, memberMarks, memberMarks, List.append_nil]

theorem marks_str (text : String) :
    (str text).marks wrapped = if Expr.isReference text then [(text, wrapped)] else [] := by
  rw [marks]

theorem marks_pair (left right : Json) :
    (arr [left, right]).marks wrapped = left.marks wrapped ++ right.marks wrapped := by
  rw [marks, itemMarks, itemMarks, itemMarks, List.append_nil]

end Json

/-! ## Texts that begin with the mark -/

namespace Expr

variable {left right : String}

theorem isReference_mark (text : String) : isReference ("$" ++ text) = true := by
  simp [isReference]

theorem isReference_append (hleft : isReference left = false) (hright : isReference right = false) :
    isReference (left ++ right) = false := by
  rw [isReference, beq_eq_false_iff_ne] at hleft hright ⊢
  rw [String.toList_append, List.head?_append]
  cases hhead : left.toList.head? with
  | none => exact hright
  | some c =>
      rw [Option.some_or, ← hhead]
      exact hleft

theorem isReference_padded (width n : Nat) : isReference (Numeral.padded width n) = false := by
  refine isReference_append ?_ ?_
  all_goals
    rw [isReference, beq_eq_false_iff_ne]
    intro hhead
    have hmem := List.mem_of_mem_head? hhead
  · rw [String.toList_ofList] at hmem
    exact absurd (Number.isDigit_of_mem_replicate hmem) (by decide)
  · exact absurd (Number.isDigit_of_mem_repr hmem) (by decide)

theorem isReference_yearText (year : Int) : isReference (Instant.yearText year) = false := by
  rw [Instant.yearText]
  split
  · exact isReference_append rfl (isReference_padded ..)
  · split
    · exact isReference_append rfl (isReference_padded ..)
    · exact isReference_padded ..

theorem isReference_instant (t : Instant) : isReference t.text = false := by
  rw [Instant.text, Instant.clockText]
  -- the literals between the fields would be taken apart as well if they were unfolded
  repeat' with_reducible refine isReference_append ?_ ?_
  all_goals first | rw [isReference_padded] | rw [isReference_yearText] | rfl

end Expr

/-! ## What is listed of an expression is what is written -/

variable {wrapped : Bool}

namespace Mark

theorem isConstant_of_mem_ofConstant {value : Json} {mark : Mark}
    (h : mark ∈ ofConstant wrapped value) : mark.isConstant = true := by
  obtain ⟨_, -, rfl⟩ := List.mem_map.mp h
  rfl

theorem isConstant_of_mem_ofLiteral {value : Json} {mark : Mark}
    (h : mark ∈ ofLiteral wrapped value) : mark.isConstant = true := by
  cases value <;> exact isConstant_of_mem_ofConstant h

@[simp] theorem map_shown_ofConstant (value : Json) :
    (ofConstant wrapped value).map shown = value.marks wrapped := by
  simp [ofConstant, shown, Function.comp_def]

theorem map_shown_ofReference {text : String} (h : Expr.isReference text = true) :
    (ofReference wrapped text).map shown = (Json.str text).marks wrapped := by
  rw [Json.marks_str, if_pos h]
  rfl

/-- A constant text is wrapped if it has to be, and a constant object is in any case. -/
theorem map_shown_ofLiteral (value : Json) :
    (ofLiteral wrapped value).map shown = (Expr.literalJson value).marks wrapped := by
  cases value with
  | str text =>
      rw [ofLiteral, map_shown_ofConstant, Expr.literalJson]
      split
      · next h => rw [Json.marks_wrapper]
      · next h => rw [Json.marks_str, Json.marks_str, if_neg h, if_neg h]
  | obj members => rw [ofLiteral, map_shown_ofConstant, Expr.literalJson, Json.marks_wrapper]
  | null | bool | num | arr => exact map_shown_ofConstant _

end Mark

theorem Unary.marks_toJson (operator : Unary) {argument : Json} {marks : List Mark}
    (h : argument.marks wrapped = marks.map Mark.shown) :
    (operator.toJson argument).marks wrapped = (operator.marks wrapped marks).map Mark.shown := by
  cases operator with
  | size | least | greatest | mean | toObject =>
      rw [Unary.toJson, Json.marks_single (by decide), h]
      rfl
  | elementAt | slice =>
      rw [Unary.toJson, Json.marks_single (by decide), Json.marks_pair, h]
      exact List.append_nil _
  | member name =>
      rw [Unary.toJson, Json.marks_single (by decide), Json.marks_obj rfl, Unary.marks,
        List.map_append, Mark.map_shown_ofConstant, ← h]
      simp only [Json.memberMarks, List.append_nil]
  | withMember name values =>
      have hitem : Expr.isReference ("$$" ++ itemVariable ++ "." ++ name) = true := by
        rw [String.append_assoc, String.append_assoc]
        exact Expr.isReference_mark ("$" ++ _)
      have has : (Json.str itemVariable).marks wrapped = [] := rfl
      rw [Unary.toJson, Json.marks_single (by decide), Json.marks_obj rfl, Unary.marks,
        List.map_append, List.map_append, Mark.map_shown_ofConstant,
        Mark.map_shown_ofReference hitem, ← h]
      simp only [Json.memberMarks, has, Json.marks_single (by decide : "$in" ≠ "$literal"),
        Json.marks_pair, List.append_nil, List.nil_append, List.append_assoc]

namespace Expr

theorem fieldsJson_eq (fields : List (String × Expr)) :
    fieldsJson fields = fields.map (Prod.map id toJson) := by
  induction fields with
  | nil => rfl
  | cons field fields ih =>
      rw [fieldsJson, ih]
      rfl

/-- A written object is a wrapper exactly if the names of its fields make it one. -/
theorem isWrapper_ofList_fieldsJson (fields : List (String × Expr)) :
    Table.isWrapper (Table.ofList (fieldsJson fields)) = Table.isWrapper (Table.ofList fields) := by
  rw [fieldsJson_eq, Table.ofList_map, Table.isWrapper, Table.isWrapper, Table.names_map]

mutual

theorem marks_toJson (wrapped : Bool) :
    ∀ expr : Expr, expr.toJson.marks wrapped = (expr.marks wrapped).map Mark.shown
  | field path => (Mark.map_shown_ofReference (isReference_mark path)).symm
  | root => rfl
  | literal value => (Mark.map_shown_ofLiteral value).symm
  | instant t => by
      rw [toJson, Json.marks_single (by decide), Json.marks_str, isReference_instant t]
      rfl
  | unary operator argument => operator.marks_toJson (marks_toJson wrapped argument)
  | binary operator left right => by
      have hname : operator.name ≠ "$literal" := by cases operator <;> decide
      rw [toJson, Json.marks_single hname, Json.marks_pair, marks_toJson wrapped left,
        marks_toJson wrapped right, marks, List.map_append]
  | ifNull value fallback => by
      rw [toJson, Json.marks_single (by decide), Json.marks_pair, marks_toJson wrapped value,
        marks_toJson wrapped fallback, marks, List.map_append]
  | cond test yes no => by
      rw [toJson, Json.marks_single (by decide), Json.marks_obj rfl, marks]
      simp only [Json.memberMarks, marks_toJson wrapped test, marks_toJson wrapped yes,
        marks_toJson wrapped no, List.map_append, List.append_assoc, List.append_nil]
  | all terms => by
      rw [toJson, Json.marks_single (by decide), Json.marks]
      exact itemMarks_toJson wrapped terms
  | merge parts => by
      rw [toJson, Json.marks_single (by decide), Json.marks]
      exact itemMarks_toJson wrapped parts
  | object fields => by
      rw [toJson, Json.marks, isWrapper_ofList_fieldsJson, Json.memberMarks_eq, ← Table.ofList_map,
        fieldMarks_toJson _ fields, Table.ofList_map, marks, List.map_flatMap, List.flatMap_map]
      rfl

theorem itemMarks_toJson (wrapped : Bool) : ∀ exprs : List Expr,
    Json.itemMarks wrapped (itemsJson exprs) = (termMarks wrapped exprs).map Mark.shown
  | [] => rfl
  | expr :: exprs => by
      rw [itemsJson, Json.itemMarks, marks_toJson wrapped expr, itemMarks_toJson wrapped exprs,
        termMarks, List.map_append]

theorem fieldMarks_toJson (wrapped : Bool) : ∀ fields : List (String × Expr),
    (fieldsJson fields).map (Prod.map id (Json.marks wrapped))
      = (fieldMarks wrapped fields).map (Prod.map id (List.map Mark.shown))
  | [] => rfl
  | (name, expr) :: fields => by
      rw [fieldsJson, List.map_cons, fieldMarks_toJson wrapped fields, fieldMarks, List.map_cons,
        Prod.map_apply, Prod.map_apply, marks_toJson wrapped expr]

end

end Expr

/-! ## The references of the written value -/

/-- An operator adds constants and bare references to the texts of its argument. -/
theorem Unary.isWrapped_or_mem {operator : Unary} {argument : List Mark} {mark : Mark}
    (h : mark ∈ operator.marks false argument) (hreference : mark.isConstant = false) :
    mark.isWrapped = false ∨ mark ∈ argument := by
  have hconstant : ∀ {value : Json}, mark ∉ Mark.ofConstant false value := by
    intro value hmark
    rw [Mark.isConstant_of_mem_ofConstant hmark] at hreference
    cases hreference
  cases operator with
  | member name => exact .inr ((List.mem_append.mp h).resolve_left hconstant)
  | withMember name values =>
      rcases List.mem_append.mp ((List.mem_append.mp h).resolve_right hconstant) with hmark | hmark
      · exact .inr hmark
      · exact .inl (by rw [List.mem_singleton.mp hmark])
  | size | elementAt | slice | least | greatest | mean | toObject => exact .inr h

namespace Expr

theorem references_toJson (expr : Expr) :
    expr.toJson.references
      = ((expr.marks false).filter fun mark => !mark.isWrapped).map (·.text) := by
  rw [Json.references, marks_toJson, List.filter_map, List.map_map]
  rfl

/-- The written value refers to what the expression refers to, and to nothing else, exactly if no
constant is left bare. -/
theorem references_toJson_eq_iff (expr : Expr) :
    expr.toJson.references = expr.references ↔ expr.wrapsConstants = true := by
  have hfilter : (expr.marks false).filter (fun mark => !mark.isConstant && !mark.isWrapped)
      = ((expr.marks false).filter fun mark => !mark.isWrapped).filter
          fun mark => !mark.isConstant := List.filter_filter.symm
  rw [references_toJson, references, hfilter, wrapsConstants, List.all_eq_true]
  constructor
  · intro heq mark hmark
    -- a bare constant would make the one list longer than the other
    have hlength := congrArg List.length heq
    rw [List.length_map, List.length_map] at hlength
    have hall := List.length_filter_eq_length_iff.mp hlength.symm
    cases hwrapped : mark.isWrapped with
    | true => simp [Mark.isSafe, hwrapped]
    | false =>
        have := hall mark (List.mem_filter.mpr ⟨hmark, by simp [hwrapped]⟩)
        simp [Mark.isSafe, this]
  · intro hsafe
    have hreferences : ∀ mark ∈ (expr.marks false).filter (fun mark => !mark.isWrapped),
        (!mark.isConstant) = true := by
      intro mark hmark
      obtain ⟨hmem, hbare⟩ := List.mem_filter.mp hmark
      have hmark := hsafe mark hmem
      rw [Mark.isSafe, Bool.or_eq_true] at hmark
      exact hmark.resolve_right (by simpa using hbare)
    rw [List.filter_eq_self.mpr hreferences]

mutual

/-- Only an object that is written as a wrapper puts a reference under one. -/
theorem isWrapped_of_mem_marks (expr : Expr) (h : expr.buildsWrapper = false) {mark : Mark}
    (hmark : mark ∈ expr.marks false) (hreference : mark.isConstant = false) :
    mark.isWrapped = false := by
  match expr with
  | field _ | root => cases List.mem_singleton.mp hmark; rfl
  | literal value =>
      rw [Mark.isConstant_of_mem_ofLiteral hmark] at hreference
      cases hreference
  | instant _ => cases hmark
  | unary operator argument =>
      rcases Unary.isWrapped_or_mem hmark hreference with hbare | hargument
      · exact hbare
      · exact isWrapped_of_mem_marks argument h hargument hreference
  | binary _ left right =>
      rw [buildsWrapper, Bool.or_eq_false_iff] at h
      rcases List.mem_append.mp hmark with hleft | hright
      · exact isWrapped_of_mem_marks left h.1 hleft hreference
      · exact isWrapped_of_mem_marks right h.2 hright hreference
  | ifNull value fallback =>
      rw [buildsWrapper, Bool.or_eq_false_iff] at h
      rcases List.mem_append.mp hmark with hvalue | hfallback
      · exact isWrapped_of_mem_marks value h.1 hvalue hreference
      · exact isWrapped_of_mem_marks fallback h.2 hfallback hreference
  | cond test yes no =>
      rw [buildsWrapper, Bool.or_eq_false_iff, Bool.or_eq_false_iff] at h
      rcases List.mem_append.mp hmark with hboth | hno
      · rcases List.mem_append.mp hboth with htest | hyes
        · exact isWrapped_of_mem_marks test h.1.1 htest hreference
        · exact isWrapped_of_mem_marks yes h.1.2 hyes hreference
      · exact isWrapped_of_mem_marks no h.2 hno hreference
  | all terms => exact isWrapped_of_mem_termMarks terms h hmark hreference
  | merge parts => exact isWrapped_of_mem_termMarks parts h hmark hreference
  | object fields =>
      rw [buildsWrapper, Bool.or_eq_false_iff] at h
      rw [marks, h.1] at hmark
      obtain ⟨entry, hentry, hmark⟩ := List.mem_flatMap.mp hmark
      rcases Table.mem_putAll hentry with hnil | hentry
      · cases hnil
      · exact isWrapped_of_mem_fieldMarks fields h.2 hentry hmark hreference
termination_by structural expr

theorem isWrapped_of_mem_termMarks (exprs : List Expr) (h : termsBuildWrapper exprs = false)
    {mark : Mark} (hmark : mark ∈ termMarks false exprs) (hreference : mark.isConstant = false) :
    mark.isWrapped = false := by
  match exprs with
  | [] => cases hmark
  | expr :: exprs =>
      rw [termsBuildWrapper, Bool.or_eq_false_iff] at h
      rcases List.mem_append.mp hmark with hfirst | hrest
      · exact isWrapped_of_mem_marks expr h.1 hfirst hreference
      · exact isWrapped_of_mem_termMarks exprs h.2 hrest hreference
termination_by structural exprs

theorem isWrapped_of_mem_fieldMarks (fields : List (String × Expr))
    (h : fieldsBuildWrapper fields = false) {entry : String × List Mark}
    (hentry : entry ∈ fieldMarks false fields) {mark : Mark} (hmark : mark ∈ entry.2)
    (hreference : mark.isConstant = false) : mark.isWrapped = false := by
  match fields with
  | [] => cases hentry
  | (name, expr) :: fields =>
      rw [fieldsBuildWrapper, Bool.or_eq_false_iff] at h
      rcases List.mem_cons.mp hentry with rfl | hrest
      · exact isWrapped_of_mem_marks expr h.1 hmark hreference
      · exact isWrapped_of_mem_fieldMarks fields h.2 hrest hmark hreference
termination_by structural fields

end

/-- Unless an object is written as a wrapper, all references are seen. -/
theorem references_eq {expr : Expr} (h : expr.buildsWrapper = false) :
    expr.references = ((expr.marks false).filter fun mark => !mark.isConstant).map (·.text) := by
  rw [references, List.filter_congr]
  intro mark hmark
  cases hconstant : mark.isConstant with
  | true => rfl
  | false => rw [isWrapped_of_mem_marks expr h hmark hconstant]; rfl

end Expr

/-! ## Columns and joins -/

namespace Mark

theorem all_isSafe_ofConstant_str (text : String) :
    (ofConstant false (.str text)).all isSafe = !Expr.isReference text := by
  rw [ofConstant, Json.marks_str]
  cases Expr.isReference text <;> rfl

theorem all_isSafe_ofConstant_strs (texts : List String) :
    (ofConstant false (.arr (texts.map .str))).all isSafe
      = texts.all fun text => !Expr.isReference text := by
  induction texts with
  | nil => rfl
  | cons text texts ih =>
      rw [List.all_cons, ← ih, ← all_isSafe_ofConstant_str, ← List.all_append]
      simp only [ofConstant, Json.marks, Json.itemMarks, List.map_cons, List.map_append]

end Mark

namespace MetricJoin

/-- No reduction adds a constant that begins with `$`. -/
theorem wrapsConstants_reduce (reduction : Reduction) (window : Int) (values : Expr) :
    (reduce reduction window values).wrapsConstants = values.wrapsConstants := by
  cases reduction with
  | least | greatest | mean | recentMean => rfl
  | last =>
      have hempty : Mark.ofLiteral false (.arr []) = [] := rfl
      have hzero : Mark.ofLiteral false (.int 0) = [] := rfl
      have hnull : Expr.null.marks false = [] := rfl
      simp only [reduce, Expr.wrapsConstants, Expr.above, Expr.marks, Unary.marks, hempty, hzero,
        hnull, List.append_nil, List.all_append, Bool.and_self]

theorem wrapsConstants_columnExpr (column : MetricColumn) :
    (columnExpr column).wrapsConstants = !Expr.isReference column.series := by
  have hvalues : Mark.ofConstant false (.str "values") = [] := rfl
  have htable : (Expr.field tableField).marks false
      = Mark.ofReference false ("$" ++ tableField) := rfl
  rw [columnExpr, wrapsConstants_reduce, Expr.wrapsConstants, Expr.member, Expr.member, Expr.marks,
    Expr.marks, Unary.marks, Unary.marks, hvalues, List.nil_append, List.all_append,
    Mark.all_isSafe_ofConstant_str, htable]
  exact Bool.and_true _

theorem wrapsConstants_selection (names : List String) :
    (Expr.unary (.withMember "name" (names.map .str)) (.field Field.metricRefs)).wrapsConstants
      = names.all fun name => !Expr.isReference name := by
  rw [Expr.wrapsConstants, Expr.marks, Unary.marks, List.all_append,
    Mark.all_isSafe_ofConstant_strs]
  rfl

/-- Of the expressions of a join, the selection of references and the columns alone hold names of
series. -/
theorem mem_exprs {columns : List MetricColumn} {collection : String} {expr : Expr}
    (h : expr ∈ (stages columns collection).flatMap Stage.exprs) :
    expr = .unary (.withMember "name" ((seriesNames columns).names.map .str))
        (.field Field.metricRefs)
      ∨ (expr.wrapsConstants = true ∧ expr.buildsWrapper = false)
      ∨ ∃ column ∈ columns, expr = columnExpr column := by
  rw [stages, List.flatMap_append, List.mem_append] at h
  rcases h with htable | hcolumn
  · simp only [tableStages, List.flatMap_cons, List.flatMap_nil, Stage.exprs, List.map_cons,
      List.map_nil, Accumulator.value, List.cons_append, List.nil_append, List.append_nil,
      List.mem_cons, List.not_mem_nil, or_false] at htable
    rcases htable with rfl | rfl | rfl | rfl | rfl
    · exact .inl rfl
    all_goals exact .inr (.inl ⟨by decide, by decide⟩)
  · rw [columnStage, List.flatMap_singleton, Stage.exprs, List.map_map] at hcolumn
    obtain ⟨column, hmem, rfl⟩ := List.mem_map.mp hcolumn
    exact .inr (.inr ⟨column, hmem, rfl⟩)

theorem buildsWrapper_columnExpr (column : MetricColumn) :
    (columnExpr column).buildsWrapper = false := by
  rw [columnExpr]
  cases column.reduction <;> rfl

theorem wrapsConstants_exprs_iff (columns : List MetricColumn) (collection : String) :
    (∀ expr ∈ (stages columns collection).flatMap Stage.exprs, expr.wrapsConstants = true)
      ↔ ∀ column ∈ columns, Expr.isReference column.series = false := by
  constructor
  · intro h column hcolumn
    have hmem : columnExpr column ∈ (stages columns collection).flatMap Stage.exprs := by
      rw [stages, List.flatMap_append, columnStage, List.flatMap_singleton, Stage.exprs,
        List.map_map]
      exact List.mem_append_right _ (List.mem_map.mpr ⟨column, hcolumn, rfl⟩)
    have hsafe := h _ hmem
    rwa [wrapsConstants_columnExpr, Bool.not_eq_true'] at hsafe
  · intro h expr hexpr
    rcases mem_exprs hexpr with rfl | ⟨hsafe, -⟩ | ⟨column, hcolumn, rfl⟩
    · rw [wrapsConstants_selection, List.all_eq_true]
      intro name hname
      obtain ⟨column, hcolumn, rfl⟩ := List.mem_map.mp (NameSet.mem_ofList.mp hname)
      rw [h column hcolumn]
      rfl
    · exact hsafe
    · rw [wrapsConstants_columnExpr, h column hcolumn]
      rfl

theorem buildsWrapper_of_mem_exprs {columns : List MetricColumn} {collection : String}
    {expr : Expr} (h : expr ∈ (stages columns collection).flatMap Stage.exprs) :
    expr.buildsWrapper = false := by
  rcases mem_exprs h with rfl | ⟨-, hnone⟩ | ⟨column, -, rfl⟩
  · rfl
  · exact hnone
  · exact buildsWrapper_columnExpr column

end MetricJoin

open MetricJoin in
/-- What begins with `$` in the written form of an expression comes from the texts of the
expression, in their order. What is not wrapped there are its references, and nothing else exactly
if all its constants that begin with `$` are wrapped; unless an object is built that is itself
written as a wrapper, these are all its references. A metric column, and a join with all it
computes, keep to this exactly if no name of a series begins with `$`. -/
theorem written_references (expr : Expr) (column : MetricColumn) (columns : List MetricColumn)
    (collection : String) :
    (expr.toJson.marks false = (expr.marks false).map Mark.shown
        ∧ (expr.toJson.references = expr.references ↔ expr.wrapsConstants = true)
        ∧ (expr.buildsWrapper = false → expr.references
          = ((expr.marks false).filter fun mark => !mark.isConstant).map (·.text)))
      ∧ ((columnExpr column).toJson.references = (columnExpr column).references
        ↔ Expr.isReference column.series = false)
      ∧ (∀ part ∈ (stages columns collection).flatMap Stage.exprs, part.buildsWrapper = false)
      ∧ ((∀ part ∈ (stages columns collection).flatMap Stage.exprs,
          part.toJson.references = part.references)
        ↔ ∀ wanted ∈ columns, Expr.isReference wanted.series = false) := by
  refine ⟨?_, ?_, fun part => buildsWrapper_of_mem_exprs, ?_⟩
  · exact ⟨Expr.marks_toJson false expr, Expr.references_toJson_eq_iff expr, Expr.references_eq⟩
  · rw [Expr.references_toJson_eq_iff, wrapsConstants_columnExpr, Bool.not_eq_true']
  · simp only [Expr.references_toJson_eq_iff]
    exact wrapsConstants_exprs_iff columns collection

open MetricJoin in
/-- The column of a plain series refers to the table of the series, and to nothing else. -/
theorem written_references_of_column :
    let column : MetricColumn := ⟨"best", "loss", .least, none⟩
    (columnExpr column).buildsWrapper = false
      ∧ (columnExpr column).references = ["$__metrics"]
      ∧ (columnExpr column).toJson.references = ["$__metrics"]
      ∧ ∀ expr ∈ (stages [column] "metrics").flatMap Stage.exprs,
        expr.toJson.references = expr.references := by
  intro column
  have hnone : (columnExpr column).buildsWrapper = false := by decide
  have hplain : Expr.isReference column.series = false := by decide
  obtain ⟨hexpr, hcolumn, -, hjoin⟩ :=
    written_references (columnExpr column) column [column] "metrics"
  have hreferences : (columnExpr column).references = ["$__metrics"] :=
    (hexpr.2.2 hnone).trans (by decide)
  refine ⟨hnone, hreferences, (hcolumn.mpr hplain).trans hreferences, ?_⟩
  exact hjoin.mpr (List.forall_mem_singleton.mpr hplain)

open MetricJoin in
/-- A name of a member, a selected value and an item of a constant array are written bare, and so is
the name of a series in a column. -/
theorem bare_constants_refer :
    let name := Expr.member "$price" .root
    let selected := Expr.unary (.withMember "k" [.str "$v"]) (.field "a")
    let item := Expr.literal (.arr [.str "$y"])
    let column := columnExpr ⟨"c", "$loss", .least, none⟩
    (name.references = ["$$ROOT"] ∧ name.toJson.references = ["$price", "$$ROOT"])
      ∧ (selected.references = ["$a", "$$item.k"]
        ∧ selected.toJson.references = ["$a", "$$item.k", "$v"])
      ∧ (item.references = [] ∧ item.toJson.references = ["$y"])
      ∧ (column.references = ["$__metrics"]
        ∧ column.toJson.references = ["$loss", "$__metrics"]) := by
  decide

end RunTable
