import RunTable.Instant.Calendar

/-!
# Days and dates correspond

A date is found from the number of its day by an estimate of the year and a walk through the months.
The estimate is off by one at most, so the year that comes out is the one whose days surround the
number, and within it the walk ends at the month and the day that the rest of the number falls on.
So the date is one of the calendar, and counting its days gives the number back.
-/

namespace RunTable.Date

/-- The year that is found for a day begins at or before it and ends behind it. -/
theorem yearOf_spec (days : Int) :
    daysBeforeYear (yearOf days) ≤ days ∧ days < daysBeforeYear (yearOf days + 1) := by
  have hestimate : daysBeforeYear (days * 400 / 146097) ≤ days
      ∧ days < daysBeforeYear (days * 400 / 146097 + 1 + 1 + 1) := by
    simp only [daysBeforeYear]
    omega
  rw [yearOf]
  split
  · next hbefore =>
      rw [Int.add_sub_cancel]
      exact ⟨hestimate.1, hbefore⟩
  · next hstart =>
      split
      · next hend => exact ⟨hend, hestimate.2⟩
      · next hend => exact ⟨Int.not_lt.mp hstart, Int.not_le.mp hend⟩

/-- The years grow with their days. -/
theorem daysBeforeYear_mono {earlier later : Int} (h : earlier ≤ later) :
    daysBeforeYear earlier ≤ daysBeforeYear later := by
  simp only [daysBeforeYear]
  omega

/-- The walk through the months ends at a day of a month that is as many days from the start. -/
theorem inMonths_spec {lengths : List Nat} {day : Nat}
    (h : day < daysInMonths lengths lengths.length) :
    ∃ before length after, lengths = before ++ length :: after
      ∧ (inMonths lengths day).1 = before.length + 1
      ∧ 1 ≤ (inMonths lengths day).2 ∧ (inMonths lengths day).2 ≤ length
      ∧ daysInMonths lengths before.length + ((inMonths lengths day).2 - 1) = day := by
  induction lengths generalizing day with
  | nil => cases h
  | cons length lengths ih =>
      rw [inMonths]
      split
      · next hlt =>
        exact ⟨[], length, lengths, rfl, rfl, by omega, by omega, by simp [daysInMonths]⟩
      · next hge =>
          rw [List.length_cons, daysInMonths] at h
          obtain ⟨before, other, after, rfl, hmonth, hpos, hle, hsum⟩ :=
            @ih (day - length) (by omega)
          refine ⟨length :: before, other, after, rfl, ?_, hpos, hle, ?_⟩
          · simp only [hmonth, List.length_cons]
          · rw [List.length_cons, daysInMonths]
            simp only
            omega

theorem length_monthLengths (year : Int) : (monthLengths year).length = 12 := rfl

/-- The date of a day is one of the calendar and is numbered as the day. -/
theorem ofDayNumber_spec (number : Int) :
    (ofDayNumber number).dayNumber = number
      ∧ (inRange (ofDayNumber number).year = true → (ofDayNumber number).isValid = true)
      ∧ 1 ≤ (ofDayNumber number).month ∧ (ofDayNumber number).month ≤ 12
      ∧ 1 ≤ (ofDayNumber number).day ∧ (ofDayNumber number).day ≤ 31 := by
  have hyear := yearOf_spec (number + epochDays)
  have hsucc := daysBeforeYear_succ (yearOf (number + epochDays))
  have hwithin : (number + epochDays - daysBeforeYear (yearOf (number + epochDays))).toNat
      < daysInMonths (monthLengths (yearOf (number + epochDays)))
        (monthLengths (yearOf (number + epochDays))).length := by
    rw [length_monthLengths]
    omega
  obtain ⟨before, length, after, hlengths, hmonth, hpos, hle, hsum⟩ := inMonths_spec hwithin
  have hcount := congrArg List.length hlengths
  rw [length_monthLengths, List.length_append, List.length_cons] at hcount
  have hmost : ∀ l ∈ monthLengths (yearOf (number + epochDays)), l ≤ 31 := by
    intro l hl
    simp only [monthLengths, List.mem_cons, List.not_mem_nil, or_false] at hl
    split at hl <;> omega
  have hlength : length ≤ 31 := hmost length (by rw [hlengths]; simp)
  rw [ofDayNumber]
  dsimp only
  refine ⟨?_, ?_, by omega, by omega, hpos, by omega⟩
  · rw [dayNumber]
    dsimp only
    rw [hmonth, Nat.add_sub_cancel]
    omega
  · intro hrange
    have hfound : (monthLengths (yearOf (number + epochDays)))[before.length + 1 - 1]?
        = some length := by
      rw [Nat.add_sub_cancel, hlengths, List.getElem?_append_right (Nat.le_refl _), Nat.sub_self]
      rfl
    rw [isValid]
    dsimp only at hrange ⊢
    rw [hrange, hmonth, hfound, Option.any_some]
    simp only [hpos, hle, decide_true, Bool.and_true, Bool.true_and,
      decide_eq_true_eq]
    omega

end RunTable.Date
