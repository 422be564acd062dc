import ScriptMachine.Number.Rounding

/-!
# Rounding keeps the order

The double nearest to an integer grows with the integer. Within one power of two the rounded
significand grows with the quotient; between two powers the exponent field outweighs it.
`Double.rank` tells all doubles apart, so the total order of doubles is linear.
-/

set_option autoImplicit false

namespace ScriptMachine

theorem compare_natCast (m n : Nat) : compare (m : Int) (n : Int) = compare m n := by
  simp only [Int.compare_eq_ite_lt, Nat.compare_eq_ite_lt, Int.ofNat_lt]

theorem roundQuotient_bounds (num den : Nat) :
    num / den ≤ roundQuotient num den ∧ roundQuotient num den ≤ num / den + 1 := by
  simp only [roundQuotient]
  split
  · omega
  · split
    · omega
    · split <;> omega

theorem roundQuotient_mono {num num' den : Nat} (le : num ≤ num') :
    roundQuotient num den ≤ roundQuotient num' den := by
  have low := roundQuotient_bounds num den
  have high := roundQuotient_bounds num' den
  have quotient : num / den ≤ num' / den := Nat.div_le_div_right le
  rcases Nat.lt_or_ge (num / den) (num' / den) with lt | ge
  · omega
  · -- the quotients agree, so the remainders decide
    have same : num / den = num' / den := Nat.le_antisymm quotient ge
    have split := Nat.div_add_mod num den
    have split' := Nat.div_add_mod num' den
    rw [same] at split
    have rest : num % den ≤ num' % den := by omega
    simp only [roundQuotient, same]
    by_cases below : 2 * (num % den) < den
    · simp only [below, if_true]
      split
      · omega
      · split
        · omega
        · split <;> omega
    · have notBelow : ¬ 2 * (num' % den) < den := by omega
      simp only [below, notBelow, if_false]
      by_cases above : den < 2 * (num % den)
      · have above' : den < 2 * (num' % den) := by omega
        simp only [above, above', if_true]
        omega
      · simp only [above, if_false]
        by_cases even : num' / den % 2 = 0
        · simp only [even, if_true]
          split <;> omega
        · simp only [even, if_false, ite_self, Nat.le_refl]

theorem le_roundQuotient {num den bound : Nat} (positive : 0 < den) (le : bound * den ≤ num) :
    bound ≤ roundQuotient num den :=
  Nat.le_trans ((Nat.le_div_iff_mul_le positive).mpr le) (roundQuotient_bounds num den).1

theorem roundQuotient_le {num den bound : Nat} (lt : num < bound * den) :
    roundQuotient num den ≤ bound := by
  have quotient : num / den < bound := Nat.div_lt_of_lt_mul (by rwa [Nat.mul_comm])
  have := (roundQuotient_bounds num den).2
  omega

namespace Double

theorem binaryExponent_one {n : Nat} (positive : n ≠ 0) : binaryExponent n 1 = n.log2 := by
  have reached : 2 ^ n.log2 ≤ n := Nat.log2_self_le positive
  have unit : Nat.log2 1 = 0 := by decide
  simp [binaryExponent, unit, reached]

/-- The bits of the double nearest to an integer: the exponent field, and the significand with its
leading bit. -/
theorem nearestMagnitude_one {n : Nat} (positive : n ≠ 0) :
    nearestMagnitude n 1 =
      min ((n.log2 + 1022) * 2 ^ 52 + scaledQuotient n 1 ((n.log2 : Int) - 52))
        infiniteMagnitude := by
  have unit : max ((n.log2 : Int) - 52) (-1074) = (n.log2 : Int) - 52 := by omega
  have field : ((n.log2 : Int) - 52 + 1074).toNat = n.log2 + 1022 := by omega
  simp only [nearestMagnitude, binaryExponent_one positive, unit, field]
  simp [positive]

/-- The significand of an integer has its leading bit at `2 ^ 52`, or was rounded up to the next
power of two. -/
theorem scaledQuotient_bounds {n : Nat} (positive : n ≠ 0) :
    2 ^ 52 ≤ scaledQuotient n 1 ((n.log2 : Int) - 52) ∧
      scaledQuotient n 1 ((n.log2 : Int) - 52) ≤ 2 ^ 53 := by
  have low : 2 ^ n.log2 ≤ n := Nat.log2_self_le positive
  have high : n < 2 ^ (n.log2 + 1) := Nat.lt_log2_self
  simp only [scaledQuotient]
  split
  · rename_i large
    obtain ⟨extra, eq⟩ : ∃ extra : Nat, n.log2 = extra + 52 := ⟨n.log2 - 52, by omega⟩
    have unit : ((n.log2 : Int) - 52).toNat = extra := by omega
    rw [unit, Nat.one_mul]
    rw [eq] at low high
    refine ⟨le_roundQuotient (Nat.two_pow_pos extra) ?_, roundQuotient_le ?_⟩
    · rw [Nat.pow_add] at low
      omega
    · have : 2 ^ (extra + 52 + 1) = 2 ^ 53 * 2 ^ extra := by
        rw [← Nat.pow_add]
        congr 1
        omega
      omega
  · rename_i small
    obtain ⟨missing, eq⟩ : ∃ missing : Nat, n.log2 + missing = 52 := ⟨52 - n.log2, by omega⟩
    have unit : (-((n.log2 : Int) - 52)).toNat = missing := by omega
    rw [unit]
    have scale : 2 ^ n.log2 * 2 ^ missing = 2 ^ 52 := by rw [← Nat.pow_add, eq]
    refine ⟨le_roundQuotient Nat.one_pos ?_, roundQuotient_le ?_⟩
    · have := Nat.mul_le_mul_right (2 ^ missing) low
      omega
    · have := Nat.mul_lt_mul_of_pos_right high (Nat.two_pow_pos missing)
      rw [Nat.pow_succ, Nat.mul_right_comm, scale] at this
      omega

theorem scaledQuotient_mono {n m : Nat} (le : n ≤ m) (unit : Int) :
    scaledQuotient n 1 unit ≤ scaledQuotient m 1 unit := by
  simp only [scaledQuotient]
  split
  · exact roundQuotient_mono le
  · exact roundQuotient_mono (Nat.mul_le_mul_right _ le)

theorem nearestMagnitude_mono {n m : Nat} (le : n ≤ m) :
    nearestMagnitude n 1 ≤ nearestMagnitude m 1 := by
  by_cases zero : n = 0
  · simp [nearestMagnitude, zero]
  have positive : m ≠ 0 := by omega
  rw [nearestMagnitude_one zero, nearestMagnitude_one positive]
  have exponent : n.log2 ≤ m.log2 := by
    rw [Nat.le_log2 positive]
    exact Nat.le_trans (Nat.log2_self_le zero) le
  have boundsN := scaledQuotient_bounds zero
  have boundsM := scaledQuotient_bounds positive
  have key : (n.log2 + 1022) * 2 ^ 52 + scaledQuotient n 1 ((n.log2 : Int) - 52)
      ≤ (m.log2 + 1022) * 2 ^ 52 + scaledQuotient m 1 ((m.log2 : Int) - 52) := by
    rcases Nat.lt_or_ge n.log2 m.log2 with lt | ge
    · omega
    · have same : n.log2 = m.log2 := Nat.le_antisymm exponent ge
      rw [same]
      have := scaledQuotient_mono le ((m.log2 : Int) - 52)
      omega
  omega

theorem nearestMagnitude_lt (num den : Nat) : nearestMagnitude num den < 2 ^ 63 := by
  have bound : infiniteMagnitude < 2 ^ 63 := by decide
  simp only [nearestMagnitude]
  split <;> omega

/-! ## The total order -/

theorem magnitude_ofMagnitude {negative : Bool} {m : Nat} (small : m < 2 ^ 63) :
    (ofMagnitude negative m).magnitude = m := by
  simp only [magnitude, ofMagnitude, UInt64.toNat_ofNat']
  cases negative <;> simp only [if_true, if_false, Bool.false_eq_true] <;> omega

theorem negative_ofMagnitude {negative : Bool} {m : Nat} :
    (ofMagnitude negative m).negative = negative := by
  simp only [Double.negative, ofMagnitude, UInt64.toNat_ofNat']
  cases negative
  · simp only [Bool.false_eq_true, if_false, decide_eq_false_iff_not]
    omega
  · simp only [if_true, decide_eq_true_eq]
    omega

theorem rank_ofMagnitude {negative : Bool} {m : Nat} (small : m < 2 ^ 63) :
    (ofMagnitude negative m).rank = if negative then -(m : Int) - 1 else m := by
  rw [rank, magnitude_ofMagnitude small, negative_ofMagnitude]

theorem magnitude_ofInt (i : Int) : (ofInt i).magnitude = nearestMagnitude i.natAbs 1 :=
  magnitude_ofMagnitude (nearestMagnitude_lt _ _)

theorem negative_ofInt (i : Int) : (ofInt i).negative = decide (i < 0) :=
  negative_ofMagnitude

theorem rank_ofInt (i : Int) :
    (ofInt i).rank =
      if i < 0 then -(nearestMagnitude i.natAbs 1 : Int) - 1 else nearestMagnitude i.natAbs 1 := by
  rw [ofInt, ofRatio, rank_ofMagnitude (nearestMagnitude_lt _ _)]
  simp

theorem rank_ofInt_mono {i j : Int} (le : i ≤ j) : (ofInt i).rank ≤ (ofInt j).rank := by
  rw [rank_ofInt, rank_ofInt]
  by_cases negI : i < 0 <;> by_cases negJ : j < 0
  · have := nearestMagnitude_mono (n := j.natAbs) (m := i.natAbs) (by omega)
    simp only [negI, negJ, if_true]
    omega
  · simp only [negI, negJ, if_true, if_false]
    omega
  · omega
  · have := nearestMagnitude_mono (n := i.natAbs) (m := j.natAbs) (by omega)
    simp only [negI, negJ, if_false]
    omega

theorem isNaN_ofInt (i : Int) : (ofInt i).isNaN = false := by
  rw [isNaN, magnitude_ofInt, nearestMagnitude]
  split
  · decide
  · simp only [decide_eq_false_iff_not]
    omega

theorem isZero_ofInt (i : Int) : (ofInt i).isZero = decide (i = 0) := by
  rw [isZero, magnitude_ofInt]
  by_cases zero : i = 0
  · subst zero
    rfl
  · have positive : i.natAbs ≠ 0 := by omega
    have bound : infiniteMagnitude ≠ 0 := by decide
    rw [nearestMagnitude_one positive]
    simp only [zero, decide_false, decide_eq_false_iff_not]
    omega

theorem rank_injective {x y : Double} (same : x.rank = y.rank) : x = y := by
  have boundX := x.bits.toNat_lt
  have boundY := y.bits.toNat_lt
  have bits : x.bits.toNat = y.bits.toNat := by
    simp only [rank, magnitude, negative, decide_eq_true_eq] at same
    split at same <;> split at same <;> omega
  cases x; cases y
  exact congrArg Double.mk (UInt64.toNat_inj.mp bits)

end Double

end ScriptMachine
