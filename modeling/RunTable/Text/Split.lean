/-!
# Splitting at a separator

A text with `n` separators has `n + 1` pieces, empty ones included, so a split never yields the
empty list and joining the pieces gives the text back.
-/

namespace RunTable.Text

/-- The pieces between the separators, from left to right. -/
def splitChars (separator : Char) : List Char → List (List Char)
  | [] => [[]]
  | c :: rest =>
    if c = separator then [] :: splitChars separator rest
    else
      match splitChars separator rest with
      | [] => [[c]]
      | piece :: pieces => (c :: piece) :: pieces

/-- The pieces of a text between the separators. -/
def split (separator : Char) (text : String) : List String :=
  (splitChars separator text.toList).map String.ofList

theorem splitChars_ne_nil (separator : Char) (cs : List Char) : splitChars separator cs ≠ [] := by
  induction cs with
  | nil => simp [splitChars]
  | cons c rest ih =>
    unfold splitChars
    split
    · simp
    · split <;> simp

theorem not_mem_of_mem_splitChars {separator : Char} {cs piece : List Char}
    (h : piece ∈ splitChars separator cs) : separator ∉ piece := by
  induction cs generalizing piece with
  | nil => simp [splitChars] at h; simp [h]
  | cons c rest ih =>
    unfold splitChars at h
    split at h
    · rcases List.mem_cons.1 h with rfl | h
      · simp
      · exact ih h
    · next hc =>
      split at h
      · next hnil => exact absurd hnil (splitChars_ne_nil _ _)
      · next first others hs =>
        rcases List.mem_cons.1 h with rfl | h
        · simp only [List.mem_cons, not_or]
          exact ⟨fun e => hc e.symm, ih (by rw [hs]; simp)⟩
        · exact ih (by rw [hs]; simp [h])

/-- Joining the pieces gives the text back. -/
theorem intercalate_splitChars (separator : Char) (cs : List Char) :
    [separator].intercalate (splitChars separator cs) = cs := by
  induction cs with
  | nil => simp [splitChars, List.intercalate]
  | cons c rest ih =>
    unfold splitChars
    split
    · next hc =>
      subst hc
      cases hs : splitChars c rest with
      | nil => exact absurd hs (splitChars_ne_nil _ _)
      | cons piece pieces =>
        rw [hs] at ih
        simpa [List.intercalate, List.intersperse] using ih
    · cases hs : splitChars separator rest with
      | nil => exact absurd hs (splitChars_ne_nil _ _)
      | cons piece pieces =>
        rw [hs] at ih
        cases pieces <;> simp_all [List.intercalate, List.intersperse]

end RunTable.Text
