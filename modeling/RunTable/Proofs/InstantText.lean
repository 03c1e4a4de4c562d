import Mathlib.Data.Nat.Digits.Defs
import RunTable.Instant.Relaxed
import RunTable.Instant.Text
import RunTable.Proofs.Calendar
import RunTable.Proofs.NumberText

/-!
# Instants are read as they are written

The text of an instant has every field at its full width, so it is read field by field without
looking ahead: each reader takes the digits of its field and hands on the rest. What comes out is
the instant itself, or, where only three digits of the fraction were written, the instant cut to its
millisecond. That holds for years of four digits, since others are written with a sign, and for
instants whose leap second stands at the end of a minute.
-/

namespace RunTable

namespace Numeral

variable {width n : Nat}

theorem digit?_of_isDigit {c : Char} (h : c.isDigit = true) :
    digit? c = some (c.toNat - '0'.toNat) := by
  rw [Char.isDigit, Bool.and_eq_true, decide_eq_true_eq, decide_eq_true_eq] at h
  exact if_pos h

/-- A padded numeral has its width, holds nothing but digits and is worth the number. -/
theorem padded_spec (hwidth : 0 < width) (hn : n < 10 ^ width) :
    (padded width n).toList.length = width ∧ (∀ c ∈ (padded width n).toList, c.isDigit = true)
      ∧ Nat.ofDigitChars 10 (padded width n).toList 0 = n := by
  have hlist : (padded width n).toList
      = List.replicate (width - (Nat.repr n).length) '0' ++ (Nat.repr n).toList := by
    rw [padded, String.toList_append, String.toList_ofList]
  have hlength : (Nat.repr n).length ≤ width := Nat.repr_length n width hwidth hn
  rw [hlist]
  refine ⟨?_, fun c hc => ?_, ?_⟩
  · rw [List.length_append, List.length_replicate, String.length_toList]
    omega
  · exact (List.mem_append.mp hc).elim Number.isDigit_of_mem_replicate Number.isDigit_of_mem_repr
  · rw [Nat.ofDigitChars_append, Nat.ofDigitChars_replicate_zero, Nat.mul_zero,
      Number.ofDigitChars_repr]

end Numeral

namespace Instant

variable {width n : Nat} {ds rest : List Char}

/-! ## Reading digits -/

theorem readDigits_append (h : ∀ c ∈ ds, c.isDigit = true) (acc : Nat) :
    readDigits acc ds.length (ds ++ rest) = some (Nat.ofDigitChars 10 ds acc, rest) := by
  induction ds generalizing acc with
  | nil => rfl
  | cons c ds ih =>
      rw [List.length_cons, List.cons_append, readDigits,
        Numeral.digit?_of_isDigit (h c List.mem_cons_self)]
      exact ih (fun d hd => h d (List.mem_cons_of_mem _ hd)) _

theorem readDigits_padded (hwidth : 0 < width) (hn : n < 10 ^ width) :
    readDigits 0 width ((Numeral.padded width n).toList ++ rest) = some (n, rest) := by
  obtain ⟨hlength, hdigits, hvalue⟩ := Numeral.padded_spec hwidth hn
  have hread : readDigits 0 _ ((Numeral.padded width n).toList ++ rest) = _ :=
    readDigits_append hdigits 0
  rwa [hlength, hvalue] at hread

theorem leadingDigits_append (h : ∀ c ∈ ds, c.isDigit = true)
    (hrest : ∀ c ∈ rest.head?, c.isDigit = false) :
    leadingDigits (ds ++ rest) = ds.map fun c => c.toNat - '0'.toNat := by
  have htake : (ds ++ rest).takeWhile Char.isDigit = ds := by
    rw [List.takeWhile_append_of_pos h]
    cases rest with
    | nil => exact List.append_nil _
    | cons c rest =>
        rw [List.takeWhile_cons_of_neg (by simp [hrest c rfl]), List.append_nil]
  rw [leadingDigits, htake]
  clear htake
  induction ds with
  | nil => rfl
  | cons c ds ih =>
      rw [List.filterMap_cons, Numeral.digit?_of_isDigit (h c List.mem_cons_self), List.map_cons]
      exact congrArg _ (ih fun d hd => h d (List.mem_cons_of_mem _ hd))

/-- A fraction of up to nine digits counts for as many nanoseconds as its places say. -/
theorem readFraction_padded (hwidth : 0 < width) (hnine : width ≤ 9) (hn : n < 10 ^ width)
    (hrest : ∀ c ∈ rest.head?, c.isDigit = false) :
    readFraction ('.' :: ((Numeral.padded width n).toList ++ rest))
      = some (n * 10 ^ (9 - width), rest) := by
  obtain ⟨hlength, hdigits, hvalue⟩ := Numeral.padded_spec hwidth hn
  have hleading := leadingDigits_append hdigits hrest
  have hdrop : ((Numeral.padded width n).toList ++ rest).dropWhile Char.isDigit = rest := by
    rw [List.dropWhile_append_of_pos hdigits]
    cases rest with
    | nil => rfl
    | cons c rest => exact List.dropWhile_cons_of_neg (by simp [hrest c rfl])
  have hnanos : fractionNanos ((Numeral.padded width n).toList.map fun c => c.toNat - '0'.toNat)
      = n * 10 ^ (9 - width) := by
    rw [fractionNanos, List.take_of_length_le (by rw [List.length_map]; omega), List.foldl_map,
      List.length_map, hlength]
    exact congrArg (· * 10 ^ (9 - width)) hvalue
  rw [readFraction, hleading, hdrop, ← hnanos]
  split
  · next hnil =>
      rw [List.map_eq_nil_iff] at hnil
      rw [hnil] at hlength
      exact absurd hlength (Nat.ne_of_lt hwidth)
  · rfl

/-! ## Reading what was written -/

/-- An instant of a year of four digits, whose leap second, if it has one, is the last of a
minute. -/
structure IsDated (t : Instant) : Prop where
  nanos : t.nanos < 2 * nanosPerSecond
  leap : t.isLeap = true → t.seconds % 60 = 59
  year : 0 ≤ (Date.ofDayNumber t.dayNumber).year ∧ (Date.ofDayNumber t.dayNumber).year ≤ 9999

instance (t : Instant) : Decidable t.IsDated :=
  decidable_of_iff (t.nanos < 2 * nanosPerSecond ∧ (t.isLeap = true → t.seconds % 60 = 59)
    ∧ 0 ≤ (Date.ofDayNumber t.dayNumber).year ∧ (Date.ofDayNumber t.dayNumber).year ≤ 9999)
    ⟨fun ⟨nanos, leap, year⟩ => { nanos, leap, year }, fun h => ⟨h.nanos, h.leap, h.year⟩⟩

/-- The instant at the beginning of a millisecond. -/
def cutToMillis (t : Instant) : Instant := { t with nanos := t.nanos / 1000000 * 1000000 }

variable {t : Instant}

/-- The date and the time of day of an instant are those that describe it. -/
theorem ofClock?_clock (h : t.IsDated) (nanos : Nat) :
    ofClock? (Date.ofDayNumber t.dayNumber) (t.secondOfDay.toNat / 3600)
        (t.secondOfDay.toNat / 60 % 60)
        (t.secondOfDay.toNat % 60 + if t.isLeap = true then 1 else 0) nanos 0
      = some { t with nanos := if t.isLeap = true then nanos + nanosPerSecond else nanos } := by
  obtain ⟨hnumber, hvalid, -⟩ := Date.ofDayNumber_spec t.dayNumber
  have hrange : Date.inRange (Date.ofDayNumber t.dayNumber).year = true := by
    have := h.year
    rw [Date.inRange, decide_eq_true_eq]
    omega
  have hday : t.seconds = t.dayNumber * secondsPerDay + t.secondOfDay ∧ 0 ≤ t.secondOfDay
      ∧ t.secondOfDay < secondsPerDay := by
    rw [dayNumber, secondOfDay, secondsPerDay]
    omega
  have hminute : t.secondOfDay % 60 = t.seconds % 60 := by
    rw [secondOfDay, secondsPerDay]
    omega
  rw [ofClock?, hvalid hrange, hnumber]
  simp only [secondsPerDay] at hday
  have hclock : t.secondOfDay.toNat < 86400 := by omega
  have hsecond : t.secondOfDay.toNat % 60 + (if t.isLeap = true then 1 else 0) ≤ 60 := by
    split <;> omega
  rw [if_pos (by
    simp only [hsecond, decide_true, Bool.and_true, Bool.true_and, Bool.and_eq_true,
      decide_eq_true_eq]
    omega)]
  -- only the last second of a minute is followed by a leap second
  cases hleap : t.isLeap with
  | true =>
      have hlast := h.leap hleap
      simp only [if_true, secondsPerDay] at hsecond ⊢
      rw [if_pos (by omega), Option.some.injEq, mk.injEq]
      exact ⟨by omega, rfl⟩
  | false =>
      simp only [Bool.false_eq_true, if_false, secondsPerDay, Nat.add_zero]
      rw [if_neg (by omega), Option.some.injEq, mk.injEq]
      exact ⟨by omega, rfl⟩

theorem bind_of_eq_some {α β : Type} {x : Option α} {a : α} {f : α → Option β} {result : Option β}
    (hx : x = some a) (hresult : f a = result) : (x >>= f) = result := by
  rw [hx]
  exact hresult

/-- The text of the clock is made of six numerals at their full width, which describe the
instant. -/
theorem IsDated.exists_clock (h : t.IsDated) : ∃ year month day hour minute second : Nat,
    year < 10 ^ 4 ∧ month < 10 ^ 2 ∧ day < 10 ^ 2 ∧ hour < 10 ^ 2 ∧ minute < 10 ^ 2
      ∧ second < 10 ^ 2
      ∧ t.clockText.toList = (Numeral.padded 4 year).toList ++ '-' ::
        ((Numeral.padded 2 month).toList ++ '-' :: ((Numeral.padded 2 day).toList ++ 'T' ::
        ((Numeral.padded 2 hour).toList ++ ':' :: ((Numeral.padded 2 minute).toList ++ ':' ::
        (Numeral.padded 2 second).toList))))
      ∧ ∀ nanos, ofClock? { year, month, day } hour minute second nanos 0
        = some { t with nanos := if t.isLeap = true then nanos + nanosPerSecond else nanos } := by
  obtain ⟨-, -, hmonth, hmonth', hday, hday'⟩ := Date.ofDayNumber_spec t.dayNumber
  obtain ⟨hyear, hyear'⟩ := h.year
  have hclock : t.secondOfDay.toNat < 86400 := by
    rw [secondOfDay, secondsPerDay]
    omega
  have hsecond : t.secondOfDay.toNat % 60 + (if t.isLeap = true then 1 else 0) ≤ 60 := by
    split <;> omega
  have hyearText : yearText (Date.ofDayNumber t.dayNumber).year
      = Numeral.padded 4 (Date.ofDayNumber t.dayNumber).year.natAbs := by
    rw [yearText, if_neg (by omega), if_neg (by omega)]
  have habs : ((Date.ofDayNumber t.dayNumber).year.natAbs : Int)
      = (Date.ofDayNumber t.dayNumber).year := by omega
  refine ⟨(Date.ofDayNumber t.dayNumber).year.natAbs, (Date.ofDayNumber t.dayNumber).month,
    (Date.ofDayNumber t.dayNumber).day, t.secondOfDay.toNat / 3600, t.secondOfDay.toNat / 60 % 60,
    t.secondOfDay.toNat % 60 + if t.isLeap = true then 1 else 0, by omega, by omega, by omega,
    by omega, by omega, by omega, ?_, fun nanos => ?_⟩
  · rw [clockText, hyearText]
    simp only [String.toList_append, List.append_assoc, String.reduceToList, List.cons_append,
      List.nil_append]
  · rw [habs]
    exact ofClock?_clock h nanos

/-- The clock of an instant is read from the text of the clock, whatever fraction is behind it. -/
theorem readFull_clockText (h : t.IsDated) {fraction : List Char} {nanos : Nat}
    (hfraction : readFraction (fraction ++ ['Z']) = some (nanos, ['Z'])) :
    readFull (t.clockText.toList ++ (fraction ++ ['Z']))
      = some ({ t with nanos := if t.isLeap = true then nanos + nanosPerSecond else nanos },
          []) := by
  obtain ⟨year, month, day, hour, minute, second, hyear, hmonth, hday, hhour, hminute, hsecond,
    htext, hdescribes⟩ := h.exists_clock
  have hchar : ∀ (c : Char) (cs : List Char), readChar c (c :: cs) = some cs :=
    fun c cs => if_pos rfl
  rw [htext]
  simp only [List.append_assoc, List.cons_append]
  -- the date
  refine bind_of_eq_some (readDigits_padded (by decide) hyear) ?_
  refine bind_of_eq_some (hchar '-' _) ?_
  refine bind_of_eq_some (readDigits_padded (by decide) hmonth) ?_
  refine bind_of_eq_some (hchar '-' _) ?_
  refine bind_of_eq_some (readDigits_padded (by decide) hday) ?_
  refine bind_of_eq_some rfl ?_
  -- the time of day
  refine bind_of_eq_some (readDigits_padded (by decide) hhour) ?_
  refine bind_of_eq_some (hchar ':' _) ?_
  refine bind_of_eq_some (readDigits_padded (by decide) hminute) ?_
  refine bind_of_eq_some (hchar ':' _) ?_
  refine bind_of_eq_some (readDigits_padded (by decide) hsecond) ?_
  -- what is behind the second
  refine bind_of_eq_some hfraction (bind_of_eq_some rfl ?_)
  exact bind_of_eq_some (hdescribes nanos) rfl

/-- The nanoseconds of an instant are those of the clock and, in a leap second, a second more. -/
theorem nanos_eq (h : t.IsDated) :
    t.nanos = if t.isLeap = true then t.fraction + nanosPerSecond else t.fraction := by
  have hnanos := h.nanos
  have hleap : t.isLeap = true ↔ nanosPerSecond ≤ t.nanos := decide_eq_true_iff
  rw [fraction]
  split
  · next hsecond =>
      rw [hleap] at hsecond
      simp only [nanosPerSecond] at *
      omega
  · next hsecond =>
      rw [hleap] at hsecond
      simp only [nanosPerSecond] at *
      omega

/-- A text is read as the instant with the nanoseconds that its fraction is worth. -/
theorem ofText?_append (h : t.IsDated) {fraction text : String} {nanos : Nat}
    (hfraction : readFraction (fraction.toList ++ ['Z']) = some (nanos, ['Z']))
    (htext : text = t.clockText ++ fraction ++ "Z") :
    ofText? text
      = some { t with nanos := if t.isLeap = true then nanos + nanosPerSecond else nanos } := by
  have hlist : text.toList = t.clockText.toList ++ (fraction.toList ++ ['Z']) := by
    rw [htext, String.toList_append, String.toList_append, List.append_assoc]
    rfl
  rw [ofText?, hlist, readFull_clockText h hfraction]

theorem readFraction_point (hwidth : 0 < width) (hnine : width ≤ 9) (hn : n < 10 ^ width) :
    readFraction (("." ++ Numeral.padded width n).toList ++ ['Z'])
      = some (n * 10 ^ (9 - width), ['Z']) := by
  rw [String.toList_append]
  exact readFraction_padded hwidth hnine hn (by simp)

/-- The text with three digits of the fraction is read as the instant cut to its millisecond. -/
theorem ofText?_text (h : t.IsDated) : ofText? t.text = some t.cutToMillis := by
  have hlt : t.fraction < 1000000000 := Nat.mod_lt _ (by decide)
  have htext : t.text
      = t.clockText ++ ("." ++ Numeral.padded 3 (t.fraction / 1000000)) ++ "Z" := by
    rw [text]
    simp only [String.append_assoc]
  rw [ofText?_append h (readFraction_point (by decide) (by decide) (by omega)) htext, cutToMillis,
    nanos_eq h]
  split <;> simp only [Option.some.injEq, mk.injEq, true_and, nanosPerSecond] <;> omega

/-- The fraction of the exact text is worth all nanoseconds of the clock, and it does not begin with
a digit. -/
theorem exists_exactFraction (t : Instant) : ∃ fraction : String,
    t.exactText = t.clockText ++ fraction ++ "Z"
      ∧ readFraction (fraction.toList ++ ['Z']) = some (t.fraction, ['Z'])
      ∧ ∀ c ∈ (fraction.toList ++ ['Z']).head?, c.isDigit = false := by
  have hlt : t.fraction < 1000000000 := Nat.mod_lt _ (by decide)
  have hpoint : ∀ width n, 0 < width → width ≤ 9 → n < 10 ^ width →
      n * 10 ^ (9 - width) = t.fraction →
      readFraction (("." ++ Numeral.padded width n).toList ++ ['Z']) = some (t.fraction, ['Z'])
        ∧ ∀ c ∈ (("." ++ Numeral.padded width n).toList ++ ['Z']).head?, c.isDigit = false := by
    intro width n hwidth hnine hn hvalue
    rw [readFraction_point hwidth hnine hn, hvalue, String.toList_append]
    refine ⟨rfl, fun c hc => ?_⟩
    cases hc
    rfl
  refine ⟨_, rfl, ?_⟩
  split
  · next hzero =>
      rw [hzero]
      refine ⟨rfl, fun c hc => ?_⟩
      cases hc
      rfl
  · split
    · exact hpoint _ _ (by decide) (by decide) (by omega) (by omega)
    · split
      · exact hpoint _ _ (by decide) (by decide) (by omega) (by omega)
      · exact hpoint _ _ (by decide) (by decide) (by omega) (by omega)

/-- The exact text is read as the instant. -/
theorem ofText?_exactText (h : t.IsDated) : ofText? t.exactText = some t := by
  obtain ⟨fraction, htext, hread, -⟩ := t.exists_exactFraction
  rw [ofText?_append h hread htext, ← nanos_eq h]

/-! ## Reading in the relaxed form

A reader that skips blanks and takes fewer digits than a field has room for reads what was written
all the same, since no blank was written and behind each field stands what is no digit. -/

theorem isBlank_of_isDigit {c : Char} (h : c.isDigit = true) : Text.isBlank c = false := by
  rw [Char.isDigit, Bool.and_eq_true, decide_eq_true_eq, decide_eq_true_eq] at h
  have hlow : 48 ≤ c.toNat := UInt32.le_iff_toNat_le.mp h.1
  have hhigh : c.toNat ≤ 57 := UInt32.le_iff_toNat_le.mp h.2
  simp only [Text.isBlank, Text.blankRanges, List.any_cons, List.any_nil, Bool.or_false,
    Bool.or_eq_false_iff, Bool.and_eq_false_imp, decide_eq_true_eq, decide_eq_false_iff_not, not_le]
  omega

theorem trimLeft_of_head? {cs : List Char} (h : ∀ c ∈ cs.head?, Text.isBlank c = false) :
    Text.trimLeft cs = cs := by
  cases cs with
  | nil => rfl
  | cons c cs => exact List.dropWhile_cons_of_neg (by simp [h c rfl])

/-- A padded numeral begins with a digit, whatever is behind it. -/
theorem isDigit_of_mem_head?_padded (hwidth : 0 < width) (hn : n < 10 ^ width) {c : Char}
    (h : c ∈ ((Numeral.padded width n).toList ++ rest).head?) : c.isDigit = true := by
  obtain ⟨hlength, hdigits, -⟩ := Numeral.padded_spec hwidth hn
  have hne : (Numeral.padded width n).toList ≠ [] := by
    intro hnil
    rw [hnil] at hlength
    exact absurd hlength (Nat.ne_of_lt hwidth)
  rw [List.head?_append_of_ne_nil _ hne] at h
  exact hdigits c (List.mem_of_mem_head? h)

theorem trimLeft_padded (hwidth : 0 < width) (hn : n < 10 ^ width) (rest : List Char) :
    Text.trimLeft ((Numeral.padded width n).toList ++ rest)
      = (Numeral.padded width n).toList ++ rest :=
  trimLeft_of_head? fun _ hc => isBlank_of_isDigit (isDigit_of_mem_head?_padded hwidth hn hc)

/-- A padded numeral is read up to its end, where a character stands that is no digit. -/
theorem readUpTo_padded (hwidth : 0 < width) (hn : n < 10 ^ width)
    (hrest : ∀ c ∈ rest.head?, c.isDigit = false) :
    readUpTo width ((Numeral.padded width n).toList ++ rest) = some (n, rest) := by
  obtain ⟨hlength, hdigits, hvalue⟩ := Numeral.padded_spec hwidth hn
  have htake : (leadingDigits ((Numeral.padded width n).toList ++ rest)).take width
      = (Numeral.padded width n).toList.map fun c => c.toNat - '0'.toNat := by
    rw [leadingDigits_append hdigits hrest, List.take_of_length_le]
    rw [List.length_map, hlength]
  rw [readUpTo, trimLeft_padded hwidth hn, htake]
  split
  · next hnil =>
      rw [List.map_eq_nil_iff.mp hnil] at hlength
      exact absurd hlength (Nat.ne_of_lt hwidth)
  · rw [List.foldl_map, List.length_map, List.drop_left]
    exact congrArg (fun value => some (value, rest)) hvalue

/-- A year of four digits is read without a sign. -/
theorem readYear_padded (hn : n < 10 ^ 4) (hrest : ∀ c ∈ rest.head?, c.isDigit = false) :
    readYear ((Numeral.padded 4 n).toList ++ rest) = some ((n : Int), rest) := by
  have hdigit : ∀ c ∈ ((Numeral.padded 4 n).toList ++ rest).head?, c.isDigit = true :=
    fun c => isDigit_of_mem_head?_padded (by decide) hn
  rw [readYear, trimLeft_padded (by decide) hn]
  split
  · next heq =>
      rw [heq] at hdigit
      exact absurd (hdigit '-' rfl) (by decide)
  · next heq =>
      rw [heq] at hdigit
      exact absurd (hdigit '+' rfl) (by decide)
  · rw [readUpTo_padded (by decide) hn hrest, Option.map_some]

/-- The clock of an instant is read in the relaxed form too. -/
theorem readRelaxed_clockText (h : t.IsDated) {fraction : List Char} {nanos : Nat}
    (hfraction : readFraction (fraction ++ ['Z']) = some (nanos, ['Z']))
    (hbehind : ∀ c ∈ (fraction ++ ['Z']).head?, c.isDigit = false) :
    readRelaxed (t.clockText.toList ++ (fraction ++ ['Z']))
      = some ({ t with nanos := if t.isLeap = true then nanos + nanosPerSecond else nanos },
          []) := by
  obtain ⟨year, month, day, hour, minute, second, hyear, hmonth, hday, hhour, hminute, hsecond,
    htext, hdescribes⟩ := h.exists_clock
  have hhead : ∀ {c : Char} {cs : List Char}, c.isDigit = false →
      ∀ d ∈ (c :: cs).head?, d.isDigit = false := fun hc d hd => by cases hd; exact hc
  rw [htext]
  simp only [List.append_assoc, List.cons_append]
  -- the date
  refine bind_of_eq_some (readYear_padded hyear (hhead rfl)) ?_
  refine bind_of_eq_some rfl ?_
  refine bind_of_eq_some (readUpTo_padded (by decide) hmonth (hhead rfl)) ?_
  refine bind_of_eq_some rfl ?_
  refine bind_of_eq_some (readUpTo_padded (by decide) hday (hhead rfl)) ?_
  refine bind_of_eq_some rfl ?_
  -- the time of day
  refine bind_of_eq_some (readUpTo_padded (by decide) hhour (hhead rfl)) ?_
  refine bind_of_eq_some rfl ?_
  refine bind_of_eq_some (readUpTo_padded (by decide) hminute (hhead rfl)) ?_
  refine bind_of_eq_some rfl ?_
  refine bind_of_eq_some (readUpTo_padded (by decide) hsecond hbehind) ?_
  -- what is behind the second
  refine bind_of_eq_some hfraction (bind_of_eq_some rfl ?_)
  exact bind_of_eq_some (hdescribes nanos) rfl

/-- The exact text is read as the instant in the relaxed form too. -/
theorem ofRelaxedText?_exactText (h : t.IsDated) : ofRelaxedText? t.exactText = some t := by
  obtain ⟨fraction, htext, hread, hbehind⟩ := t.exists_exactFraction
  have hlist : t.exactText.toList = t.clockText.toList ++ (fraction.toList ++ ['Z']) := by
    rw [htext, String.toList_append, String.toList_append, List.append_assoc]
    rfl
  rw [ofRelaxedText?, hlist, readRelaxed_clockText h hread hbehind, ← nanos_eq h]
  rfl

/-! ## Differences -/

/-- Milliseconds between dated instants have at most 53 bits. -/
theorem natAbs_millisSince_lt {a b : Instant} (ha : a.IsDated) (hb : b.IsDated) :
    (a.millisSince b).natAbs < 2 ^ 53 := by
  have hdays : ∀ {t : Instant}, t.IsDated → -719528 ≤ t.dayNumber ∧ t.dayNumber ≤ 2932896 := by
    intro t h
    obtain ⟨hbefore, hbehind⟩ := Date.yearOf_spec (t.dayNumber + Date.epochDays)
    obtain ⟨hyear, hyear'⟩ := h.year
    have hfirst : Date.daysBeforeYear 0 ≤ _ := Date.daysBeforeYear_mono hyear
    have hlast := Date.daysBeforeYear_mono (Int.add_le_add_right hyear' 1)
    have hvalues : Date.daysBeforeYear 0 = -366 ∧ Date.daysBeforeYear (9999 + 1) = 3652059
        ∧ Date.epochDays = 719162 := by decide
    simp only [Date.ofDayNumber] at hfirst hlast
    omega
  have hclock : ∀ t : Instant, 0 ≤ t.secondOfDay ∧ t.secondOfDay < 86400 := by
    intro t
    rw [secondOfDay, secondsPerDay]
    omega
  have hnanos := ha.nanos
  have hnanos' := hb.nanos
  obtain ⟨hstart, hend⟩ := hdays ha
  obtain ⟨hstart', hend'⟩ := hdays hb
  obtain ⟨hclockStart, hclockEnd⟩ := hclock a
  obtain ⟨hclockStart', hclockEnd'⟩ := hclock b
  have hbound : (a.nanosSince b).natAbs < 2 ^ 53 * 1000000 := by
    simp only [nanosSince, secondsPerDay, nanosPerSecond] at *
    split
    · split <;> omega
    · split
      · split <;> omega
      · omega
  rw [millisSince, Int.natAbs_tdiv]
  exact (Nat.div_lt_iff_lt_mul (by decide)).mpr hbound

theorem IsDated.cutToMillis (h : t.IsDated) : t.cutToMillis.IsDated where
  nanos := Nat.lt_of_le_of_lt (Nat.div_mul_le_self _ _) h.nanos
  leap := by
    intro hleap
    refine h.leap ?_
    rw [isLeap, decide_eq_true_eq] at hleap ⊢
    exact Nat.le_trans hleap (Nat.div_mul_le_self _ _)
  year := h.year

end Instant

end RunTable
