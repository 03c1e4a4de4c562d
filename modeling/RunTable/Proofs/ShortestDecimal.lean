import Mathlib.Algebra.Order.Field.Power
import Mathlib.Algebra.Order.Field.Rat
import Mathlib.Order.Monotone.Basic
import Mathlib.Tactic.FieldSimp
import Mathlib.Tactic.Linarith
import Mathlib.Tactic.NormNum
import Mathlib.Tactic.Ring
import RunTable.Double.Text

/-!
# The shortest decimal is rounded to its double

The decimal that is written for a double is found by testing decimals against the interval of the
numbers that are nearest to it. So it lies in that interval; and the intervals of two magnitudes
have at most an end in common, which belongs to the one with the even significand. A double is
therefore known from its sign and the decimal that is written for it.

Magnitudes are counted by their rank, and the interval of each begins where the one before ends.
-/

namespace RunTable.Double

/-- The number that a decimal is. -/
def Decimal.value (d : Decimal) : ℚ := d.digits * 10 ^ d.exponent

theorem zpow_eq_toNat_div (b : ℚ) (e : Int) :
    b ^ e = b ^ e.toNat / b ^ (-e).toNat := by
  obtain ⟨n, rfl | rfl⟩ := e.eq_nat_or_neg
  · simp
  · simp

namespace Binary

variable {x : Binary} {n m point : Nat} {place : Int} {v : ℚ}

/-- The number that some quarters of the unit of the significand are. -/
def quarters (x : Binary) (n : Nat) : ℚ := n / 4 * 2 ^ x.exponent

/-- Where the numbers begin that are nearer to this one than to the one below. -/
def low (x : Binary) : ℚ := x.quarters (4 * x.significand - if x.narrowBelow then 1 else 2)

/-- Where the numbers end that are nearer to this one than to the one above. -/
def high (x : Binary) : ℚ := x.quarters (4 * x.significand + 2)

/-- Whether a number is rounded to this one: it is nearest, and of two nearest it has the even
significand. -/
def Rounds (x : Binary) (v : ℚ) : Prop :=
  x.low ≤ v ∧ v ≤ x.high ∧ (x.significand % 2 = 1 → x.low < v ∧ v < x.high)

theorem quarters_lt (h : n < m) : x.quarters n < x.quarters m := by
  have hcast : (n : ℚ) < m := by exact_mod_cast h
  exact mul_lt_mul_of_pos_right (by linarith) (by positivity)

theorem low_lt_high (x : Binary) : x.low < x.high :=
  quarters_lt (by omega)

theorem denominator_pos (x : Binary) (place : Int) : 0 < x.denominator place := by
  simp [denominator]

theorem numerator_eq (x : Binary) (n : Nat) (place : Int) :
    (x.numerator n place : ℚ) = x.quarters n / 10 ^ place * x.denominator place := by
  simp only [numerator, denominator, quarters, Nat.pow_eq]
  push_cast
  rw [zpow_eq_toNat_div _ x.exponent, zpow_eq_toNat_div _ place]
  field_simp

theorem numerator_le_iff :
    x.numerator n place ≤ point * x.denominator place
      ↔ x.quarters n ≤ Decimal.value ⟨point, place⟩ := by
  have hpos : (0 : ℚ) < x.denominator place := by exact_mod_cast x.denominator_pos place
  rw [← Nat.cast_le (α := ℚ), Nat.cast_mul, numerator_eq, mul_le_mul_iff_left₀ hpos,
    div_le_iff₀ (by positivity), Decimal.value]

theorem le_numerator_iff :
    point * x.denominator place ≤ x.numerator n place
      ↔ Decimal.value ⟨point, place⟩ ≤ x.quarters n := by
  have hpos : (0 : ℚ) < x.denominator place := by exact_mod_cast x.denominator_pos place
  rw [← Nat.cast_le (α := ℚ), Nat.cast_mul, numerator_eq, mul_le_mul_iff_left₀ hpos,
    le_div_iff₀ (by positivity), Decimal.value]

theorem rounds_of_readsBack (h : x.readsBack point place = true) :
    x.Rounds (Decimal.value ⟨point, place⟩) := by
  simp only [readsBack] at h
  split at h
  · next heven =>
    rw [Bool.and_eq_true, decide_eq_true_eq, decide_eq_true_eq] at h
    exact ⟨numerator_le_iff.mp h.1, le_numerator_iff.mp h.2, fun hodd => by omega⟩
  · rw [Bool.and_eq_true, decide_eq_true_eq, decide_eq_true_eq] at h
    have hlow : x.low < Decimal.value ⟨point, place⟩ := by
      rw [← not_le, low, ← le_numerator_iff, not_le]
      exact h.1
    have hhigh : Decimal.value ⟨point, place⟩ < x.high := by
      rw [← not_le, high, ← numerator_le_iff, not_le]
      exact h.2
    exact ⟨hlow.le, hhigh.le, fun _ => ⟨hlow, hhigh⟩⟩

/-! ## Neighbours -/

/-- The magnitude of the doubles of a rank. -/
def ofRank (rank : Nat) : Binary :=
  if rank / fractionBound = 0 then ⟨rank % fractionBound, -1074, false⟩
  else ⟨fractionBound + rank % fractionBound, (rank / fractionBound : Nat) - 1075,
    rank % fractionBound == 0 && rank / fractionBound > 1⟩

theorem toBinary_eq (x : Double) : x.toBinary = ofRank x.rank := rfl

theorem ofRank_of_eq_zero (h : n / fractionBound = 0) :
    ofRank n = ⟨n % fractionBound, -1074, false⟩ := if_pos h

theorem ofRank_of_ne_zero (h : n / fractionBound ≠ 0) :
    ofRank n = ⟨fractionBound + n % fractionBound, (n / fractionBound : Nat) - 1075,
      n % fractionBound == 0 && n / fractionBound > 1⟩ := if_neg h

theorem significand_ofRank_mod_two (n : Nat) : (ofRank n).significand % 2 = n % 2 := by
  by_cases h : n / fractionBound = 0
  · rw [ofRank_of_eq_zero h]
    simp only [fractionBound]
    omega
  · rw [ofRank_of_ne_zero h]
    simp only [fractionBound]
    omega

theorem neg_le_exponent_ofRank (n : Nat) : -1074 ≤ (ofRank n).exponent := by
  by_cases h : n / fractionBound = 0
  · rw [ofRank_of_eq_zero h]
  · rw [ofRank_of_ne_zero h]
    have : 1 ≤ n / fractionBound := Nat.pos_of_ne_zero h
    dsimp only
    omega

theorem low_eq_high_of_same_unit {y : Binary} (hexponent : y.exponent = x.exponent)
    (hsignificand : y.significand = x.significand + 1) (hnarrow : y.narrowBelow = false) :
    y.low = x.high := by
  rw [low, high, hnarrow, hsignificand, if_neg Bool.false_ne_true, quarters, quarters, hexponent]
  rfl

theorem low_eq_high_of_double_unit {y : Binary} (hexponent : y.exponent = x.exponent + 1)
    (hsignificand : 2 * y.significand = x.significand + 1) (hnarrow : y.narrowBelow = true) :
    y.low = x.high := by
  have hends : 2 * (4 * y.significand - 1) = 4 * x.significand + 2 := by omega
  rw [low, high, hnarrow, if_pos rfl, ← hends, quarters, quarters, hexponent,
    zpow_add_one₀ (by norm_num)]
  push_cast
  ring

/-- The numbers that are rounded to a magnitude begin where those end that are rounded to the
magnitude below. -/
theorem low_ofRank_succ (n : Nat) : (ofRank (n + 1)).low = (ofRank n).high := by
  by_cases hcarry : fractionBound ∣ n + 1
  · have hdivSucc := Nat.succ_div_of_dvd hcarry
    have hmodSucc := Nat.mod_eq_zero_of_dvd hcarry
    have hlast : n % fractionBound + 1 = fractionBound := by
      simp only [fractionBound] at hcarry ⊢
      omega
    rw [ofRank_of_ne_zero (hdivSucc.trans_ne (Nat.succ_ne_zero _)), hdivSucc, hmodSucc]
    by_cases hzero : n / fractionBound = 0
    · rw [ofRank_of_eq_zero hzero, hzero]
      exact low_eq_high_of_same_unit rfl hlast.symm rfl
    · -- the unit doubles, and the gap below is half of it
      rw [ofRank_of_ne_zero hzero]
      refine low_eq_high_of_double_unit (by push_cast; ring) (by dsimp only; omega) ?_
      simp [Nat.pos_of_ne_zero hzero]
  · have hdivSucc := Nat.succ_div_of_not_dvd hcarry
    have hmodSucc : (n + 1) % fractionBound = n % fractionBound + 1 := by
      simp only [fractionBound] at hcarry ⊢
      omega
    by_cases hzero : n / fractionBound = 0
    · rw [ofRank_of_eq_zero hzero, ofRank_of_eq_zero (hdivSucc.trans hzero), hmodSucc]
      exact low_eq_high_of_same_unit rfl rfl rfl
    · rw [ofRank_of_ne_zero hzero, ofRank_of_ne_zero (hdivSucc.trans_ne hzero), hmodSucc,
        hdivSucc]
      exact low_eq_high_of_same_unit rfl rfl rfl

theorem high_ofRank_strictMono : StrictMono fun rank => (ofRank rank).high :=
  strictMono_nat_of_lt_succ fun rank => (low_ofRank_succ rank).symm.trans_lt (low_lt_high _)

/-- No number is rounded to two magnitudes. -/
theorem rank_unique {r s : Nat} (hr : (ofRank r).Rounds v) (hs : (ofRank s).Rounds v) : r = s := by
  wlog hlt : r < s generalizing r s
  · rcases Nat.lt_trichotomy r s with h | h | h
    · exact this hr hs h
    · exact h
    · exact (this hs hr h).symm
  obtain ⟨below, rfl⟩ : ∃ below, s = below + 1 := ⟨s - 1, by omega⟩
  have hends : (ofRank below).high ≤ (ofRank r).high := by
    rw [← low_ofRank_succ]
    exact hs.1.trans hr.2.1
  have hbelow : below ≤ r := high_ofRank_strictMono.le_iff_le.mp hends
  obtain rfl : r = below := by omega
  -- the two magnitudes are neighbours, and only the even one has the number between them
  have hv : v = (ofRank r).high := le_antisymm hr.2.1 ((low_ofRank_succ r).symm.trans_le hs.1)
  rcases Nat.mod_two_eq_zero_or_one r with heven | hodd
  · have hodd : (ofRank (r + 1)).significand % 2 = 1 := by
      rw [significand_ofRank_mod_two]
      omega
    have := (hs.2.2 hodd).1
    rw [low_ofRank_succ, hv] at this
    exact absurd this (lt_irrefl _)
  · have := (hr.2.2 ((significand_ofRank_mod_two r).trans hodd)).2
    rw [hv] at this
    exact absurd this (lt_irrefl _)

/-! ## The shortest decimal -/

theorem readsBack_of_onGrid? (h : x.onGrid? place = some point) :
    x.readsBack point place = true := by
  simp only [onGrid?] at h
  split at h
  · cases h
  · next hbelow _ =>
    obtain rfl := Option.some.inj h
    exact hbelow
  · next _ habove =>
    obtain rfl := Option.some.inj h
    exact habove
  · next hbelow habove =>
    split at h
    · obtain rfl := Option.some.inj h
      exact hbelow
    · obtain rfl := Option.some.inj h
      exact habove
    · obtain rfl := Option.some.inj h
      split
      · exact hbelow
      · exact habove

end Binary

theorem Decimal.value_strip (fuel : Nat) (d : Decimal) :
    (Decimal.strip fuel d).value = d.value := by
  induction fuel generalizing d with
  | zero => rfl
  | succ fuel ih =>
    rw [Decimal.strip]
    split
    · next hzero =>
      have hdigits : (d.digits : ℚ) = (d.digits / 10 : Nat) * 10 := by
        exact_mod_cast (Nat.div_mul_cancel (Nat.dvd_of_mod_eq_zero hzero.1)).symm
      rw [ih, Decimal.value, Decimal.value, zpow_add_one₀ (by norm_num), hdigits]
      ring
    · rfl

namespace Binary

variable {x : Binary}

theorem rounds_self (h : 0 < x.significand) : x.Rounds (x.quarters (4 * x.significand)) := by
  have hlow : x.low < x.quarters (4 * x.significand) := quarters_lt (by split <;> omega)
  have hhigh : x.quarters (4 * x.significand) < x.high := quarters_lt (by omega)
  exact ⟨hlow.le, hhigh.le, fun _ => ⟨hlow, hhigh⟩⟩

/-- All digits of a binary number with few places behind the point. -/
theorem value_all_digits (h : -1074 ≤ x.exponent) :
    Decimal.value ⟨x.numerator (4 * x.significand) (-1074) / x.denominator (-1074), -1074⟩
      = x.quarters (4 * x.significand) := by
  obtain ⟨fives, hfives⟩ : 2 ^ (-x.exponent).toNat ∣ 10 ^ (1074 : Nat) :=
    (pow_dvd_pow 2 (show (-x.exponent).toNat ≤ 1074 by omega)).trans
      (pow_dvd_pow_of_dvd (by norm_num) 1074)
  have hwhole : x.numerator (4 * x.significand) (-1074)
      = x.denominator (-1074) * (x.significand * 2 ^ x.exponent.toNat * fives) := by
    simp only [numerator, denominator, Nat.pow_eq, show (-(-1074 : Int)).toNat = 1074 from rfl,
      show (-1074 : Int).toNat = 0 from rfl, hfives]
    ring
  have hpos : (0 : ℚ) < x.denominator (-1074) := by exact_mod_cast x.denominator_pos _
  have hquotient := x.numerator_eq (4 * x.significand) (-1074)
  rw [hwhole, Nat.cast_mul, mul_comm, mul_left_inj' hpos.ne'] at hquotient
  rw [Decimal.value, hwhole, Nat.mul_div_cancel_left _ (x.denominator_pos _), hquotient]
  exact div_mul_cancel₀ _ (by positivity)

/-- The shortest decimal of a binary number is rounded to it. -/
theorem rounds_shortest (hexponent : -1074 ≤ x.exponent) (hpos : 0 < x.significand) :
    x.Rounds x.shortest.value := by
  rw [shortest]
  split
  · next d hfound =>
    rw [Decimal.value_strip]
    obtain ⟨n, -, hn⟩ := List.exists_of_findSome?_eq_some hfound
    obtain ⟨point, hpoint, rfl⟩ := Option.map_eq_some_iff.mp hn
    exact rounds_of_readsBack (readsBack_of_onGrid? hpoint)
  · rw [value_all_digits hexponent]
    exact rounds_self hpos

end Binary

/-! ## Doubles -/

theorem isNegative_iff {x : Double} : x.isNegative = true ↔ signBound ≤ x.bits.toNat := by
  simp [isNegative]

/-- Sign and rank make up a double. -/
theorem eq_of_rank_eq {x y : Double} (hsign : x.isNegative = y.isNegative)
    (hrank : x.rank = y.rank) : x = y := by
  have hx := x.bits.toNat_lt
  have hy := y.bits.toNat_lt
  have hbits : x.bits.toNat = y.bits.toNat := by
    rw [Bool.eq_iff_iff, isNegative_iff, isNegative_iff] at hsign
    simp only [rank, signBound] at hrank hsign
    omega
  obtain ⟨bits, finite⟩ := x
  obtain ⟨bits', finite'⟩ := y
  obtain rfl : bits = bits' := UInt64.toNat_inj.mp hbits
  rfl

theorem significand_toBinary_pos {x : Double} (h : x.isZero = false) :
    0 < x.toBinary.significand := by
  have hrank : x.rank ≠ 0 := by simpa [isZero] using h
  rw [Binary.toBinary_eq]
  by_cases hzero : x.rank / fractionBound = 0
  · rw [Binary.ofRank_of_eq_zero hzero]
    simp only [fractionBound] at hzero ⊢
    omega
  · rw [Binary.ofRank_of_ne_zero hzero]
    exact Nat.add_pos_left (by decide) _

/-- The number that the text of a double shows without its sign. -/
def shown (x : Double) : ℚ := if x.isZero then 0 else x.toBinary.shortest.value

theorem rounds_shown (x : Double) : x.toBinary.Rounds x.shown := by
  rw [shown]
  split
  · next h =>
    have hrank : x.rank = 0 := by simpa [isZero] using h
    have hlow : (Binary.ofRank 0).low = 0 := by simp [Binary.low, Binary.quarters, Binary.ofRank]
    rw [Binary.toBinary_eq, hrank]
    exact ⟨hlow.le, hlow ▸ (Binary.low_lt_high _).le, fun hodd => absurd hodd (by decide)⟩
  · next h =>
    exact Binary.rounds_shortest (Binary.neg_le_exponent_ofRank _)
      (significand_toBinary_pos (Bool.not_eq_true _ ▸ h))

/-- A double is known from its sign and the number that its text shows. -/
theorem eq_of_shown_eq {x y : Double} (hsign : x.isNegative = y.isNegative)
    (hshown : x.shown = y.shown) : x = y :=
  eq_of_rank_eq hsign (Binary.rank_unique x.rounds_shown (hshown ▸ y.rounds_shown))

end RunTable.Double
