import RunTable.Json.Printer
import RunTable.Proofs.ShortestDecimal

/-!
# The text of a number

A number is written as a sign, digits, perhaps more digits behind a point, and perhaps a power of
ten. These parts are found again in the text, also when the text goes on, as long as it does not go
on with something that could belong to the number. An integer has neither point nor power and is
the number its digits make; a double always has one of them and shows a decimal that is rounded to
it. So the parts of a text settle the number.
-/

namespace RunTable

namespace Number

variable {s t : List Char}

/-! ## Digits -/

theorem isDigit_of_mem_repr {n : Nat} {c : Char} (h : c ∈ (Nat.repr n).toList) :
    c.isDigit = true := by
  rw [Nat.repr_eq_ofList_toDigits, String.toList_ofList] at h
  exact Nat.isDigit_of_mem_toDigits (by decide) (by decide) h

theorem ofDigitChars_repr (n : Nat) : Nat.ofDigitChars 10 (Nat.repr n).toList 0 = n := by
  rw [Nat.repr_eq_ofList_toDigits, String.toList_ofList]
  exact Nat.ofDigitChars_ten_toDigits

theorem isDigit_of_mem_replicate {n : Nat} {c : Char} (h : c ∈ List.replicate n '0') :
    c.isDigit = true := by
  rw [List.eq_of_mem_replicate h]
  rfl

theorem isDigit_of_mem_zero {c : Char} (h : c ∈ ['0']) : c.isDigit = true := by
  rw [List.mem_singleton.mp h]
  rfl

theorem mem_head?_of_eq_cons {c : Char} (h : s = c :: t) : c ∈ s.head? := by
  rw [h]
  rfl

/-- Digits are told from what follows them, if that is no digit. -/
theorem append_inj_of_isDigit {a b : List Char} (ha : ∀ c ∈ a, c.isDigit = true)
    (hb : ∀ c ∈ b, c.isDigit = true) (hs : ∀ c ∈ s.head?, c.isDigit = false)
    (ht : ∀ c ∈ t.head?, c.isDigit = false) (h : a ++ s = b ++ t) : a = b ∧ s = t := by
  induction a generalizing b with
  | nil =>
    cases b with
    | nil => exact ⟨rfl, h⟩
    | cons c b =>
      have hdigit := hb c List.mem_cons_self
      rw [hs c (mem_head?_of_eq_cons h)] at hdigit
      cases hdigit
  | cons c a ih =>
    cases b with
    | nil =>
      have hdigit := ha c List.mem_cons_self
      rw [ht c (mem_head?_of_eq_cons h.symm)] at hdigit
      cases hdigit
    | cons c' b =>
      obtain ⟨rfl, hrest⟩ := List.cons.inj h
      obtain ⟨rfl, rfl⟩ := ih (fun c hc => ha c (List.mem_cons_of_mem _ hc))
        (fun c hc => hb c (List.mem_cons_of_mem _ hc)) hrest
      exact ⟨rfl, rfl⟩

/-! ## The parts of a number -/

/-- A written number by its parts. -/
structure Parts where
  negative : Bool
  whole : List Char
  /-- The digits behind the point, if there is one. -/
  fraction : Option (List Char)
  exponent : Option Int

namespace Parts

variable {p q : Parts}

def sign (p : Parts) : List Char := if p.negative then ['-'] else []

def point (p : Parts) : List Char := p.fraction.elim [] ('.' :: ·)

def power (p : Parts) : List Char :=
  p.exponent.elim [] fun e => 'e' :: (if e < 0 then '-' else '+') :: (Nat.repr e.natAbs).toList

def chars (p : Parts) : List Char := p.sign ++ (p.whole ++ (p.point ++ p.power))

/-- Whether there are digits in front of the point and nothing else around it. -/
structure IsNumeral (p : Parts) : Prop where
  ne_nil : p.whole ≠ []
  whole : ∀ c ∈ p.whole, c.isDigit = true
  fraction : ∀ ds ∈ p.fraction, ∀ c ∈ ds, c.isDigit = true

/-- The number written, less its sign. -/
def magnitude (p : Parts) : ℚ :=
  Nat.ofDigitChars 10 (p.whole ++ p.fraction.getD []) 0
    * 10 ^ (p.exponent.getD 0 - (p.fraction.getD []).length)

/-- Whether a number is the one that the parts stand for. -/
def Spells (p : Parts) : Number → Prop
  | .int n => p.fraction = none ∧ p.exponent = none
    ∧ n = (if p.negative then -1 else 1) * (Nat.ofDigitChars 10 p.whole 0 : Int)
  | .double x => ¬ (p.fraction = none ∧ p.exponent = none) ∧ x.isNegative = p.negative
    ∧ x.shown = p.magnitude

/-- The parts that spell a number spell no other. -/
theorem Spells.unique {m n : Number} (hm : p.Spells m) (hn : p.Spells n) : m = n := by
  cases m with
  | int m =>
    cases n with
    | int n => rw [hm.2.2, hn.2.2]
    | double y => exact absurd ⟨hm.1, hm.2.1⟩ hn.1
  | double x =>
    cases n with
    | int n => exact absurd ⟨hn.1, hn.2.1⟩ hm.1
    | double y =>
      rw [Double.eq_of_shown_eq (hm.2.1.trans hn.2.1.symm) (hm.2.2.trans hn.2.2.symm)]

end Parts

/-! ## Reading the parts -/

/-- Whether no digit, point or power stands at the beginning of what follows a number. -/
def Ends (s : List Char) : Prop := ∀ c ∈ s.head?, c.isDigit = false ∧ c ≠ '.' ∧ c ≠ 'e'

namespace Parts

variable {p q : Parts}

theorem head?_power_append (hs : Ends s) :
    ∀ c ∈ (p.power ++ s).head?, c.isDigit = false ∧ c ≠ '.' := by
  intro c hc
  rw [power] at hc
  cases hexponent : p.exponent with
  | none =>
    rw [hexponent] at hc
    exact ⟨(hs c hc).1, (hs c hc).2.1⟩
  | some e =>
    rw [hexponent] at hc
    obtain rfl : 'e' = c := Option.some.inj hc
    exact ⟨rfl, by decide⟩

theorem head?_point_append (hs : Ends s) :
    ∀ c ∈ (p.point ++ (p.power ++ s)).head?, c.isDigit = false := by
  intro c hc
  rw [point] at hc
  cases hfraction : p.fraction with
  | none =>
    rw [hfraction] at hc
    exact (head?_power_append hs c hc).1
  | some ds =>
    rw [hfraction] at hc
    obtain rfl : '.' = c := Option.some.inj hc
    rfl

theorem power_append_inj (hs : Ends s) (ht : Ends t) (h : p.power ++ s = q.power ++ t) :
    p.exponent = q.exponent ∧ s = t := by
  rw [power, power] at h
  cases hp : p.exponent with
  | none =>
    cases hq : q.exponent with
    | none =>
      rw [hp, hq] at h
      exact ⟨rfl, h⟩
    | some e' =>
      rw [hp, hq] at h
      exact absurd rfl (hs 'e' (mem_head?_of_eq_cons h)).2.2
  | some e =>
    cases hq : q.exponent with
    | none =>
      rw [hp, hq] at h
      exact absurd rfl (ht 'e' (mem_head?_of_eq_cons h.symm)).2.2
    | some e' =>
      rw [hp, hq] at h
      obtain ⟨hsign, hrest⟩ := List.cons.inj (List.cons.inj h).2
      obtain ⟨hdigits, rfl⟩ := append_inj_of_isDigit (fun _ => isDigit_of_mem_repr)
        (fun _ => isDigit_of_mem_repr) (fun c hc => (hs c hc).1) (fun c hc => (ht c hc).1) hrest
      have habs : e.natAbs = e'.natAbs := by
        rw [← ofDigitChars_repr e.natAbs, hdigits, ofDigitChars_repr]
      have hnegative : e < 0 ↔ e' < 0 := by
        by_cases hleft : e < 0 <;> by_cases hright : e' < 0 <;> simp [hleft, hright] at hsign ⊢
      exact ⟨congrArg some (by omega), rfl⟩

theorem point_append_inj (hp : p.IsNumeral) (hq : q.IsNumeral) (hs : Ends s) (ht : Ends t)
    (h : p.point ++ (p.power ++ s) = q.point ++ (q.power ++ t)) :
    p.fraction = q.fraction ∧ p.power ++ s = q.power ++ t := by
  rw [point, point] at h
  cases hpf : p.fraction with
  | none =>
    cases hqf : q.fraction with
    | none =>
      rw [hpf, hqf] at h
      exact ⟨rfl, h⟩
    | some ds' =>
      rw [hpf, hqf] at h
      exact absurd rfl (head?_power_append hs '.' (mem_head?_of_eq_cons h)).2
  | some ds =>
    cases hqf : q.fraction with
    | none =>
      rw [hpf, hqf] at h
      exact absurd rfl (head?_power_append ht '.' (mem_head?_of_eq_cons h.symm)).2
    | some ds' =>
      rw [hpf, hqf] at h
      obtain ⟨rfl, hrest⟩ := append_inj_of_isDigit (hp.fraction ds hpf) (hq.fraction ds' hqf)
        (fun c hc => (head?_power_append hs c hc).1) (fun c hc => (head?_power_append ht c hc).1)
        (List.cons.inj h).2
      exact ⟨rfl, hrest⟩

theorem whole_append_ne_minus (hp : p.IsNumeral) : p.whole ++ s ≠ '-' :: t := by
  obtain ⟨c, cs, hcons⟩ := List.exists_cons_of_ne_nil hp.ne_nil
  have hdigit := hp.whole c (hcons ▸ List.mem_cons_self)
  intro heq
  rw [hcons] at heq
  rw [(List.cons.inj heq).1] at hdigit
  cases hdigit

theorem sign_append_inj (hp : p.IsNumeral) (hq : q.IsNumeral)
    (h : p.sign ++ (p.whole ++ s) = q.sign ++ (q.whole ++ t)) :
    p.negative = q.negative ∧ p.whole ++ s = q.whole ++ t := by
  rw [sign, sign] at h
  cases hpn : p.negative with
  | false =>
    cases hqn : q.negative with
    | false =>
      rw [hpn, hqn] at h
      exact ⟨rfl, h⟩
    | true =>
      rw [hpn, hqn] at h
      exact absurd h (whole_append_ne_minus hp)
  | true =>
    cases hqn : q.negative with
    | false =>
      rw [hpn, hqn] at h
      exact absurd h.symm (whole_append_ne_minus hq)
    | true =>
      rw [hpn, hqn] at h
      exact ⟨rfl, (List.cons.inj h).2⟩

/-- Parts are read in one way from a text that goes on with something else. -/
theorem chars_append_inj (hp : p.IsNumeral) (hq : q.IsNumeral) (hs : Ends s) (ht : Ends t)
    (h : p.chars ++ s = q.chars ++ t) : p = q ∧ s = t := by
  simp only [chars, List.append_assoc] at h
  obtain ⟨hnegative, h⟩ := sign_append_inj hp hq h
  obtain ⟨hwhole, h⟩ := append_inj_of_isDigit hp.whole hq.whole (head?_point_append hs)
    (head?_point_append ht) h
  obtain ⟨hfraction, h⟩ := point_append_inj hp hq hs ht h
  obtain ⟨hexponent, rfl⟩ := power_append_inj hs ht h
  obtain ⟨negative, whole, fraction, exponent⟩ := p
  obtain ⟨negative', whole', fraction', exponent'⟩ := q
  cases hnegative
  cases hwhole
  cases hfraction
  cases hexponent
  exact ⟨rfl, rfl⟩

end Parts

/-! ## Writing the parts -/

theorem isNumeral_repr (n : Nat) (negative : Bool) (exponent : Option Int) :
    Parts.IsNumeral ⟨negative, (Nat.repr n).toList, none, exponent⟩ where
  ne_nil := by
    rw [Nat.repr_eq_ofList_toDigits, String.toList_ofList]
    exact Nat.toDigits_ne_nil
  whole := fun _ => isDigit_of_mem_repr
  fraction := fun _ h => by cases h

theorem exists_parts_int (n : Int) :
    ∃ p : Parts, p.IsNumeral ∧ (Number.int n).text.toList = p.chars ∧ p.Spells (.int n) := by
  have htext : (Number.int n).text = n.repr := Int.toString_eq_repr
  rw [Int.repr_eq_if] at htext
  by_cases hsign : 0 ≤ n
  · refine ⟨⟨false, (Nat.repr n.toNat).toList, none, none⟩, isNumeral_repr _ _ _, ?_, rfl, rfl,
      ?_⟩
    · rw [htext, if_pos hsign]
      simp [Parts.chars, Parts.sign, Parts.point, Parts.power]
    · rw [ofDigitChars_repr]
      simp only [Bool.false_eq_true, if_false]
      omega
  · refine ⟨⟨true, (Nat.repr (-n).toNat).toList, none, none⟩, isNumeral_repr _ _ _, ?_, rfl, rfl,
      ?_⟩
    · rw [htext, if_neg hsign, String.toList_append]
      simp [Parts.chars, Parts.sign, Parts.point, Parts.power]
    · rw [ofDigitChars_repr]
      simp only [if_true]
      omega

/-- The number that some digits make, whatever zeros stand around them. -/
theorem Parts.magnitude_eq {p : Parts} {n : Nat} {place : Int} (before behind : Nat)
    (hdigits : p.whole ++ p.fraction.getD [] = List.replicate before '0' ++ (Nat.repr n).toList
      ++ List.replicate behind '0')
    (hplace : (behind : Int) + p.exponent.getD 0 - (p.fraction.getD []).length = place) :
    p.magnitude = Double.Decimal.value ⟨n, place⟩ := by
  rw [magnitude, hdigits, Nat.ofDigitChars_append, Nat.ofDigitChars_append,
    Nat.ofDigitChars_replicate_zero, Nat.ofDigitChars_replicate_zero, Nat.mul_zero,
    ofDigitChars_repr, Double.Decimal.value, ← hplace, add_sub_assoc, zpow_add₀ (by norm_num),
    zpow_natCast]
  push_cast
  ring

/-- Digits with a point among or behind them are those of a number, scaled by the place of the
point. -/
theorem exists_parts_withPoint (n k : Nat) (hk : 1 ≤ k) (exponent : Option Int) :
    ∃ p : Parts, p.IsNumeral ∧ p.negative = false ∧ p.exponent = exponent ∧ p.fraction ≠ none
      ∧ p.whole ++ p.point = (Double.withPoint (Nat.repr n) k).toList
      ∧ p.magnitude
        = Double.Decimal.value ⟨n, k - (Nat.repr n).length + exponent.getD 0⟩ := by
  rw [Double.withPoint]
  split
  · refine ⟨⟨false, (Nat.repr n).toList ++ List.replicate (k - (Nat.repr n).length) '0',
      some ['0'], exponent⟩, ⟨?_, ?_, ?_⟩, rfl, rfl, Option.some_ne_none _, ?_, ?_⟩
    · exact List.append_ne_nil_of_left_ne_nil (isNumeral_repr n false none).ne_nil _
    · intro c hc
      exact (List.mem_append.mp hc).elim isDigit_of_mem_repr isDigit_of_mem_replicate
    · rintro _ ⟨⟩ c hc
      exact isDigit_of_mem_zero hc
    · simp [Parts.point]
    · refine Parts.magnitude_eq 0 (k - (Nat.repr n).length + 1) ?_ ?_
      · simp [List.replicate_succ']
      · simp
        omega
  · refine ⟨⟨false, (Nat.repr n).toList.take k, some ((Nat.repr n).toList.drop k), exponent⟩,
      ⟨?_, ?_, ?_⟩, rfl, rfl, Option.some_ne_none _, ?_, ?_⟩
    · rw [Ne, List.take_eq_nil_iff, not_or]
      exact ⟨by omega, (isNumeral_repr n false none).ne_nil⟩
    · exact fun c hc => isDigit_of_mem_repr (List.mem_of_mem_take hc)
    · rintro _ ⟨⟩ c hc
      exact isDigit_of_mem_repr (List.mem_of_mem_drop hc)
    · simp [Parts.point]
    · refine Parts.magnitude_eq 0 0 ?_ ?_
      · simp
      · simp only [Option.getD_some, List.length_drop, String.length_toList]
        omega

theorem chars_of_negative_false {p : Parts} (h : p.negative = false) :
    p.chars = p.whole ++ p.point ++ p.power := by
  rw [Parts.chars, Parts.sign, h, List.append_assoc]
  rfl

theorem toList_append_power {p : Parts} {e : Int} (h : p.exponent = some e) (mantissa : String) :
    (mantissa ++ "e" ++ (if e < 0 then "-" else "+") ++ Nat.repr e.natAbs).toList
      = mantissa.toList ++ p.power := by
  rw [Parts.power, h, String.toList_append, String.toList_append, String.toList_append,
    List.append_assoc, List.append_assoc]
  congr 1
  simp only [Option.elim]
  split <;> rfl

/-- The text of a decimal shows the decimal. -/
theorem exists_parts_decimal (d : Double.Decimal) :
    ∃ p : Parts, p.IsNumeral ∧ p.negative = false ∧ ¬ (p.fraction = none ∧ p.exponent = none)
      ∧ d.text.toList = p.chars ∧ p.magnitude = d.value := by
  obtain ⟨n, exponent⟩ := d
  simp only [Double.Decimal.text]
  split
  · split
    · -- zeros stand between the point and the digits
      refine ⟨⟨false, ['0'], some (List.replicate
        (-(exponent + (Nat.repr n).length - 1) - 1).toNat '0' ++ (Nat.repr n).toList), none⟩,
        ⟨List.cons_ne_nil _ _, ?_, ?_⟩, rfl, fun h => Option.some_ne_none _ h.1, ?_, ?_⟩
      · exact fun _ => isDigit_of_mem_zero
      · rintro _ ⟨⟩ c hc
        exact (List.mem_append.mp hc).elim isDigit_of_mem_replicate isDigit_of_mem_repr
      · simp [Parts.chars, Parts.sign, Parts.point, Parts.power]
      · refine Parts.magnitude_eq ((-(exponent + (Nat.repr n).length - 1) - 1).toNat + 1) 0 ?_ ?_
        · simp [List.replicate_succ]
        · simp only [Option.getD_some, Option.getD_none, List.length_append,
            List.length_replicate, String.length_toList]
          omega
    · obtain ⟨p, hp, hsign, hexponent, hfraction, htext, hvalue⟩ := exists_parts_withPoint n
        (exponent + (Nat.repr n).length - 1 + 1).toNat (by omega) none
      refine ⟨p, hp, hsign, fun h => hfraction h.1, ?_, ?_⟩
      · rw [chars_of_negative_false hsign, htext, Parts.power, hexponent]
        simp
      · rw [hvalue]
        congr 2
        simp only [Option.getD_none]
        omega
  · split
    · refine ⟨⟨false, (Nat.repr n).toList, none, some (exponent + (Nat.repr n).length - 1)⟩,
        isNumeral_repr _ _ _, rfl, fun h => Option.some_ne_none _ h.2, ?_, ?_⟩
      · rw [chars_of_negative_false rfl]
        exact (toList_append_power rfl _).trans (congrArg (· ++ _) (List.append_nil _).symm)
      · exact Parts.magnitude_eq 0 0 (by simp) (by simp; omega)
    · obtain ⟨p, hp, hsign, hexponent, hfraction, htext, hvalue⟩ := exists_parts_withPoint n
        1 le_rfl (some (exponent + (Nat.repr n).length - 1))
      refine ⟨p, hp, hsign, fun h => hfraction h.1, ?_, ?_⟩
      · rw [toList_append_power hexponent, chars_of_negative_false hsign, htext]
      · rw [hvalue]
        congr 2
        simp only [Option.getD_some]
        omega

theorem exists_parts_double (x : Double) :
    ∃ p : Parts, p.IsNumeral ∧ (Number.double x).text.toList = p.chars ∧ p.Spells (.double x) := by
  obtain ⟨p, hp, hsign, hpoint, htext, hvalue⟩ : ∃ p : Parts, p.IsNumeral ∧ p.negative = false
      ∧ ¬ (p.fraction = none ∧ p.exponent = none)
      ∧ (if x.isZero then "0.0" else x.toBinary.shortest.text).toList = p.chars
      ∧ p.magnitude = x.shown := by
    rw [Double.shown]
    split
    · refine ⟨⟨false, ['0'], some ['0'], none⟩, ⟨List.cons_ne_nil _ _, ?_, ?_⟩, rfl,
        fun h => Option.some_ne_none _ h.1, rfl, ?_⟩
      · exact fun _ => isDigit_of_mem_zero
      · rintro _ ⟨⟩ c hc
        exact isDigit_of_mem_zero hc
      · have hzeros : Nat.ofDigitChars 10 ['0', '0'] 0 = 0 := by decide
        simp [Parts.magnitude, hzeros]
    · exact exists_parts_decimal _
  refine ⟨{ p with negative := x.isNegative }, ⟨hp.ne_nil, hp.whole, hp.fraction⟩, ?_, hpoint, rfl,
    hvalue.symm⟩
  rw [chars_of_negative_false hsign] at htext
  simp only [text, Double.text, Parts.chars, Parts.sign]
  split
  · rw [String.toList_append, htext, List.append_assoc]
    rfl
  · rw [htext, List.append_assoc]
    rfl

/-- The text of a number shows the number. -/
theorem exists_parts (n : Number) :
    ∃ p : Parts, p.IsNumeral ∧ n.text.toList = p.chars ∧ p.Spells n := by
  cases n with
  | int n => exact exists_parts_int n
  | double x => exact exists_parts_double x

/-- A number is read in one way from a text that goes on with something else. -/
theorem text_append_inj {m n : Number} {s t : List Char} (hs : Ends s) (ht : Ends t)
    (h : m.text.toList ++ s = n.text.toList ++ t) : m = n ∧ s = t := by
  obtain ⟨p, hp, hpm, hm⟩ := m.exists_parts
  obtain ⟨q, hq, hqn, hn⟩ := n.exists_parts
  rw [hpm, hqn] at h
  obtain ⟨rfl, rfl⟩ := Parts.chars_append_inj hp hq hs ht h
  exact ⟨hm.unique hn, rfl⟩

end Number

end RunTable
