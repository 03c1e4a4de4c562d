import Mathlib.Algebra.Group.Nat.Defs
import RunTable.Json.Order

/-!
# Integers compare as doubles

Two integers are compared by their nearest doubles. Rounding keeps the order, so an integer is never
placed on the wrong side of another one; but it may merge neighbours, and from two to the 53 on it
does. One exact side is enough to rule that out: an integer of less than 53 bits that is below
another one has the smaller double.

Everything is read off the rank that the double of a positive number has before it is cut at the
greatest finite value: the number of its bits in the exponent field, and behind it the leading 53
bits, whose carry runs into the exponent field.
-/

namespace RunTable

namespace Double

variable {m n : Nat}

/-! ## Natural numbers -/

/-- The leading 53 bits of a number, those it does not have filled with zeros and those that are too
many rounded off. -/
def significand53 (n : Nat) : Nat :=
  if n.log2 < 53 then n * 2 ^ (52 - n.log2) else (leading53 n).1

/-- The rank that the double of a number has if it is finite. -/
def integerRank (n : Nat) : Nat := (n.log2 + 1022) * fractionBound + significand53 n

theorem key_of_rank {bits : Nat} (hlt : bits < 2047 * fractionBound) :
    ((ofBits? (UInt64.ofNat bits)).getD largest).key = bits := by
  have hbits : (UInt64.ofNat bits).toNat = bits := by
    rw [UInt64.toNat_ofNat']
    exact Nat.mod_eq_of_lt (Nat.lt_trans hlt (by decide))
  have hsign : bits < signBound := Nat.lt_trans hlt (by decide)
  have hexponent : bits / fractionBound % exponentBound ≠ 2047 := by
    have hdiv : bits / fractionBound < 2047 := (Nat.div_lt_iff_lt_mul (by decide)).mpr hlt
    rw [Nat.mod_eq_of_lt (Nat.lt_trans hdiv (by decide))]
    exact Nat.ne_of_lt hdiv
  rw [ofBits?, dif_pos (by rwa [hbits]), Option.getD_some, key, isNegative, rank, hbits,
    decide_eq_false (Nat.not_le.mpr hsign), if_neg (by simp), Nat.mod_eq_of_lt hsign]

theorem key_of_infinite :
    ((ofBits? (UInt64.ofNat (2047 * fractionBound))).getD largest).key
      = (2047 * fractionBound - 1 : Nat) := by decide

theorem leading53_snd (n : Nat) : (leading53 n).2 = n.log2 - 52 := by
  rw [leading53]
  split <;> rfl

/-- The significand has its leading bit at place 52, unless it was rounded up to a power of two. -/
theorem significand53_bounds (hpos : 0 < n) :
    2 ^ 52 ≤ significand53 n ∧ significand53 n ≤ 2 ^ 53
      ∧ (n < 2 ^ 53 → significand53 n < 2 ^ 53) := by
  have hlow : 2 ^ n.log2 ≤ n := Nat.log2_self_le (by omega)
  have hhigh : n < 2 ^ (n.log2 + 1) := Nat.lt_log2_self
  rw [significand53]
  split
  · next hsmall =>
      have hplace : ∀ k, k ≤ 1 → 2 ^ (n.log2 + k) * 2 ^ (52 - n.log2) = 2 ^ (52 + k) := by
        intro k _
        rw [← Nat.pow_add]
        congr 1
        omega
      have hbelow : n * 2 ^ (52 - n.log2) < 2 ^ 53 :=
        hplace 1 (by omega) ▸ Nat.mul_lt_mul_of_pos_right hhigh (Nat.two_pow_pos _)
      exact ⟨hplace 0 (by omega) ▸ Nat.mul_le_mul_right _ hlow, Nat.le_of_lt hbelow,
        fun _ => hbelow⟩
  · next hlarge =>
      have hkept : 2 ^ 52 ≤ n / 2 ^ (n.log2 - 52) ∧ n / 2 ^ (n.log2 - 52) < 2 ^ 53 := by
        rw [Nat.le_div_iff_mul_le (Nat.two_pow_pos _), Nat.div_lt_iff_lt_mul (Nat.two_pow_pos _),
          ← Nat.pow_add, ← Nat.pow_add]
        have hexp : 52 + (n.log2 - 52) = n.log2 ∧ 53 + (n.log2 - 52) = n.log2 + 1 := by omega
        rw [hexp.1, hexp.2]
        exact ⟨hlow, hhigh⟩
      have hbits : ¬ n < 2 ^ 53 := fun h => hlarge ((Nat.log2_lt (by omega)).mpr h)
      rw [leading53]
      simp only [Nat.pow_eq]
      split <;> exact ⟨by omega, by omega, fun h => absurd h hbits⟩

/-- The double of a positive number ranks as its leading bits say, cut at the greatest value. -/
theorem key_ofNat (hpos : 0 < n) :
    (ofNat n).key = (min (integerRank n) (2047 * fractionBound - 1) : Nat) := by
  obtain ⟨hlow, hhigh, -⟩ := significand53_bounds hpos
  have hlargest : largest.key = (2047 * fractionBound - 1 : Nat) := by decide
  rw [ofNat, if_neg (by omega)]
  split
  · rw [hlargest, integerRank, Nat.min_eq_right]
    simp only [fractionBound] at *
    omega
  · have hbits : (if n.log2 < 53 then
          (ofBits? (UInt64.ofNat ((n.log2 + 1022) * fractionBound
            + n * Nat.pow 2 (52 - n.log2)))).getD largest
        else (ofBits? (UInt64.ofNat (((leading53 n).2 + 1074) * fractionBound
            + (leading53 n).1))).getD largest)
        = (ofBits? (UInt64.ofNat (integerRank n))).getD largest := by
      rw [integerRank, significand53]
      split
      · rfl
      · have hcut : n.log2 - 52 + 1074 = n.log2 + 1022 := by omega
        rw [leading53_snd, hcut]
    refine (congrArg key hbits).trans ?_
    have hle : integerRank n ≤ 2047 * fractionBound := by
      rw [integerRank]
      simp only [fractionBound] at *
      omega
    rcases Nat.lt_or_eq_of_le hle with hlt | heq
    · rw [key_of_rank hlt, Nat.min_eq_left (Nat.le_sub_one_of_lt hlt)]
    · rw [heq, key_of_infinite, Nat.min_eq_right (Nat.sub_le _ _)]

/-- Of two numbers with the same number of bits the greater one is not rounded below the other. -/
theorem leading53_mono (hlog : m.log2 = n.log2) (hle : m ≤ n) :
    (leading53 m).1 ≤ (leading53 n).1 := by
  have hkept : m / Nat.pow 2 (n.log2 - 52) ≤ n / Nat.pow 2 (n.log2 - 52) :=
    Nat.div_le_div_right hle
  have hm := Nat.div_add_mod m (Nat.pow 2 (n.log2 - 52))
  have hn := Nat.div_add_mod n (Nat.pow 2 (n.log2 - 52))
  rw [leading53, leading53, hlog]
  rcases Nat.lt_or_eq_of_le hkept with hlt | heq
  · split <;> split <;> simp only <;> omega
  · rw [heq] at hm ⊢
    split <;> split <;> simp only <;> omega

theorem log2_le_log2 (hle : m ≤ n) : m.log2 ≤ n.log2 := by
  rcases Nat.eq_zero_or_pos m with rfl | hpos
  · exact Nat.zero_le _
  · exact (Nat.le_log2 (by omega)).mpr (Nat.le_trans (Nat.log2_self_le (by omega)) hle)

theorem integerRank_mono (hpos : 0 < m) (hle : m ≤ n) : integerRank m ≤ integerRank n := by
  obtain ⟨-, hm, -⟩ := significand53_bounds hpos
  obtain ⟨hn, -, -⟩ := significand53_bounds (Nat.lt_of_lt_of_le hpos hle)
  rcases Nat.lt_or_eq_of_le (log2_le_log2 hle) with hlt | heq
  · simp only [integerRank, fractionBound] at *
    omega
  · rw [integerRank, integerRank, heq]
    refine Nat.add_le_add_left ?_ _
    rw [significand53, significand53, heq]
    split
    · exact Nat.mul_le_mul_right _ hle
    · exact leading53_mono heq hle

/-- A number of at most 53 bits ranks below every greater one. -/
theorem integerRank_lt (hpos : 0 < m) (hexact : m < 2 ^ 53) (hlt : m < n) :
    integerRank m < integerRank n := by
  obtain ⟨-, -, hm⟩ := significand53_bounds hpos
  obtain ⟨hn, -, -⟩ := significand53_bounds (Nat.lt_trans hpos hlt)
  have hm := hm hexact
  rcases Nat.lt_or_eq_of_le (log2_le_log2 (Nat.le_of_lt hlt)) with hlog | heq
  · simp only [integerRank, fractionBound] at *
    omega
  · have hlog : m.log2 < 53 := (Nat.log2_lt (by omega)).mpr hexact
    rw [integerRank, integerRank, heq, significand53, significand53, if_pos hlog,
      if_pos (heq ▸ hlog), heq]
    exact Nat.add_lt_add_left (Nat.mul_lt_mul_of_pos_right hlt (Nat.two_pow_pos _)) _

theorem key_ofNat_nonneg (n : Nat) : 0 ≤ (ofNat n).key := by
  rcases Nat.eq_zero_or_pos n with rfl | hpos
  · decide
  · rw [key_ofNat hpos]
    exact Int.natCast_nonneg _

theorem key_ofNat_pos (h : 0 < n) : 0 < (ofNat n).key := by
  rw [key_ofNat h, integerRank, fractionBound]
  omega

theorem key_ofNat_mono (hle : m ≤ n) : (ofNat m).key ≤ (ofNat n).key := by
  rcases Nat.eq_zero_or_pos m with rfl | hpos
  · exact key_ofNat_nonneg n
  · rw [key_ofNat hpos, key_ofNat (Nat.lt_of_lt_of_le hpos hle)]
    have := integerRank_mono hpos hle
    omega

theorem key_ofNat_lt (hexact : m < 2 ^ 53) (hlt : m < n) : (ofNat m).key < (ofNat n).key := by
  rcases Nat.eq_zero_or_pos m with rfl | hpos
  · exact key_ofNat_pos hlt
  · rw [key_ofNat hpos, key_ofNat (Nat.lt_trans hpos hlt)]
    have hrank := integerRank_lt hpos hexact hlt
    have hlog : m.log2 < 53 := (Nat.log2_lt (by omega)).mpr hexact
    have hfinite : integerRank m < 2047 * fractionBound - 1 := by
      have := (significand53_bounds hpos).2.1
      simp only [integerRank, fractionBound] at *
      omega
    omega

/-! ## Integers -/

theorem xor_signBound {bits : Nat} (h : bits < signBound) :
    bits ^^^ signBound = signBound + bits := by
  have hpow : signBound = 2 ^ 63 := by decide
  rw [hpow] at h ⊢
  refine Nat.eq_of_testBit_eq fun i => ?_
  rw [Nat.testBit_xor, Nat.testBit_two_pow]
  rcases Nat.lt_trichotomy i 63 with hlt | rfl | hgt
  · rw [Nat.testBit_two_pow_add_gt hlt, decide_eq_false (by omega), Bool.xor_false]
  · rw [Nat.testBit_two_pow_add_eq, decide_eq_true rfl, Bool.xor_true]
  · have hpow : 2 ^ 64 ≤ 2 ^ i := Nat.pow_le_pow_right (by omega) hgt
    rw [Nat.testBit_lt_two_pow (by omega), Nat.testBit_lt_two_pow (by omega),
      decide_eq_false (by omega)]
    rfl

theorem toNat_neg_bits (x : Double) : (x.bits ^^^ 0x8000000000000000).toNat
    = if x.isNegative then x.rank else signBound + x.rank := by
  have hxor : (x.bits ^^^ 0x8000000000000000).toNat = x.bits.toNat ^^^ signBound := rfl
  have hrank : x.rank < signBound := Nat.mod_lt _ (by decide)
  have hlt := x.bits.toNat_lt
  rw [hxor]
  split
  · next hneg =>
      have hbits : x.bits.toNat = signBound + x.rank := by
        rw [isNegative, decide_eq_true_eq] at hneg
        simp only [rank, signBound] at *
        omega
      rw [hbits, ← xor_signBound hrank, Nat.xor_assoc, Nat.xor_self, Nat.xor_zero]
  · next hneg =>
      have hbits : x.bits.toNat = x.rank := by
        rw [isNegative, decide_eq_true_eq] at hneg
        exact (Nat.mod_eq_of_lt (Nat.not_le.mp hneg)).symm
      rw [hbits, xor_signBound hrank]

/-- The other sign negates the key. -/
theorem key_neg (x : Double) : x.neg.key = -x.key := by
  have hbits := x.toNat_neg_bits
  have hrank : x.rank < signBound := Nat.mod_lt _ (by decide)
  have hfinite : (x.bits ^^^ 0x8000000000000000).toNat / fractionBound % exponentBound ≠ 2047 := by
    have := x.finite
    rw [hbits]
    simp only [rank, fractionBound, exponentBound, signBound] at *
    split <;> omega
  rw [neg, ofBits?, dif_pos hfinite, Option.getD_some, key, key, isNegative, rank, hbits]
  split
  · rw [Nat.mod_eq_of_lt hrank, decide_eq_false (Nat.not_le.mpr hrank), if_neg (by simp),
      Int.neg_neg]
  · rw [Nat.add_mod_left, Nat.mod_eq_of_lt hrank, decide_eq_true (Nat.le_add_right _ _),
      if_pos rfl]

theorem key_ofInt_negSucc (n : Nat) : (ofInt (.negSucc n)).key = -(ofNat (n + 1)).key :=
  key_neg _

/-- Rounding keeps the order of integers. -/
theorem key_ofInt_mono {m n : Int} (hle : m ≤ n) : (ofInt m).key ≤ (ofInt n).key := by
  rcases m with a | a <;> rcases n with b | b
  · exact key_ofNat_mono (Int.ofNat_le.mp hle)
  · exact absurd (Int.negSucc_lt_zero b) (Int.not_lt.mpr (Int.le_trans (Int.natCast_nonneg a) hle))
  · rw [key_ofInt_negSucc]
    exact Int.le_trans (Int.neg_nonpos_of_nonneg (key_ofNat_nonneg _)) (key_ofNat_nonneg b)
  · rw [key_ofInt_negSucc, key_ofInt_negSucc]
    exact Int.neg_le_neg (key_ofNat_mono (by omega))

/-- Of two integers, one of which has at most 53 bits, the greater one has the greater double. -/
theorem key_ofInt_lt {m n : Int} (hexact : m.natAbs < 2 ^ 53 ∨ n.natAbs < 2 ^ 53) (hlt : m < n) :
    (ofInt m).key < (ofInt n).key := by
  rcases m with a | a <;> rcases n with b | b
  · simp only [Int.ofNat_eq_natCast, Int.natAbs_natCast] at hlt hexact
    exact key_ofNat_lt (by omega) (by omega)
  · exact absurd (Int.negSucc_lt_zero b)
      (Int.not_lt.mpr (Int.le_trans (Int.natCast_nonneg a) (Int.le_of_lt hlt)))
  · rw [key_ofInt_negSucc]
    exact Int.lt_of_lt_of_le (Int.neg_neg_of_pos (key_ofNat_pos (Nat.succ_pos a)))
      (key_ofNat_nonneg b)
  · rw [key_ofInt_negSucc, key_ofInt_negSucc]
    exact Int.neg_lt_neg (key_ofNat_lt (by omega) (by omega))

end Double

/-- Integers compare as they are if one of them has at most 53 bits. -/
theorem Number.compare_int {m n : Int} (h : m.natAbs < 2 ^ 53 ∨ n.natAbs < 2 ^ 53) :
    compare (Number.int m) (Number.int n) = compare m n := by
  have hkey : compare (Number.int m) (Number.int n)
      = compare (Double.ofInt m).key (Double.ofInt n).key := rfl
  rw [hkey]
  rcases Int.lt_trichotomy m n with hlt | rfl | hgt
  · rw [Int.compare_eq_lt.mpr hlt, Int.compare_eq_lt.mpr (Double.key_ofInt_lt h hlt)]
  · rw [Int.compare_eq_eq.mpr rfl, Int.compare_eq_eq.mpr rfl]
  · rw [Int.compare_eq_gt.mpr hgt, Int.compare_eq_gt.mpr (Double.key_ofInt_lt h.symm hgt)]

end RunTable
