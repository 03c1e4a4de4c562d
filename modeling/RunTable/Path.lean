import RunTable.Text.Split

/-!
# Dotted paths

A path names a place in a document, one segment for each level. Paths are compared segment by
segment: `config` is above `config.lr` but not above `configs`. The empty text is the path of one
empty segment, so every path has a first segment.
-/

namespace RunTable.Path

/-- The segments of a path, from the root down. -/
def segments (path : String) : List String := Text.split '.' path

/-- Whether the first list of segments is a proper beginning of the second. -/
def isProperStart : List String → List String → Bool
  | [], _ :: _ => true
  | a :: as, b :: bs => a == b && isProperStart as bs
  | _, [] => false

def isAncestor (ancestor path : String) : Bool := isProperStart (segments ancestor) (segments path)

/-- Whether a path is another one or lies above it. -/
def covers (upper path : String) : Bool := upper == path || isAncestor upper path

theorem isProperStart_iff {as bs : List String} :
    isProperStart as bs = true ↔ ∃ c cs, bs = as ++ c :: cs := by
  induction as generalizing bs with
  | nil => cases bs <;> simp [isProperStart]
  | cons a as ih =>
    cases bs with
    | nil => simp [isProperStart]
    | cons b bs =>
      simp only [isProperStart, Bool.and_eq_true, beq_iff_eq, ih, List.cons_append,
        List.cons.injEq, exists_and_left]
      exact and_congr_left fun _ => eq_comm

theorem segments_ne_nil (path : String) : segments path ≠ [] := by
  simp [segments, Text.split, Text.splitChars_ne_nil]

/-- Two paths with the same segments are the same. -/
theorem segments_injective {p q : String} (h : segments p = segments q) : p = q := by
  simp only [segments, Text.split] at h
  have hs : Text.splitChars '.' p.toList = Text.splitChars '.' q.toList :=
    (List.map_inj_right fun a b hab => String.ofList_injective hab).1 h
  have := congrArg (List.intercalate ['.']) hs
  rw [Text.intercalate_splitChars, Text.intercalate_splitChars] at this
  exact String.toList_inj.1 this

theorem not_isAncestor_self (path : String) : isAncestor path path = false := by
  have h : ∀ segs, isProperStart segs segs = false := by
    intro segs; induction segs with
    | nil => rfl
    | cons s segs ih => simp [isProperStart, ih]
  exact h _

end RunTable.Path
