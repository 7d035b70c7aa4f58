import BehaviorTree.Json.Numeral
import BehaviorTree.Proofs.Number.Rounding
import Mathlib.Data.Int.Log
import Mathlib.Data.Rat.Floor
import Mathlib.Tactic.Positivity

/-!
# Numbers that are exact

The number nearest to a quotient depends on the quotient alone, not on how it is written
(`roundMagnitude_congr`). A natural number of no more than 53 binary digits before its trailing
zeros is a number, and so the product and the quotient of two such numbers are the nearest to the
true ones. That makes reading a decimal quick and still exact, where its significand is below
`2 ^ 53` and its power of ten is at most the twenty-second (`Decimal.scaled_eq`).
-/

namespace BehaviorTree

namespace Number

variable {num den num' den' : Nat}

/-! ## Quotients -/

/-- The comparison of a quotient with a power of two, without fractions. -/
theorem two_zpow_le_div (positive : 0 < den) (e : Int) :
    den * Nat.pow 2 e.toNat ≤ num * Nat.pow 2 (-e).toNat ↔ (2 : ℚ) ^ e ≤ num / den := by
  have power (k : Nat) : (0 : ℚ) < 2 ^ k := by positivity
  have bottom : (0 : ℚ) < den := Nat.cast_pos.2 positive
  rw [le_div_iff₀ bottom]
  rcases le_total 0 e with up | down
  · obtain ⟨k, rfl⟩ := Int.eq_ofNat_of_zero_le up
    simp only [Int.toNat_natCast, Int.toNat_neg_natCast, Nat.pow_eq, pow_zero, mul_one,
      zpow_natCast]
    rw [mul_comm]
    exact_mod_cast Iff.rfl
  · obtain ⟨k, rfl⟩ : ∃ k : Nat, e = -(k : Int) := ⟨(-e).toNat, by omega⟩
    simp only [neg_neg, Int.toNat_natCast, Int.toNat_neg_natCast, Nat.pow_eq, pow_zero, mul_one,
      zpow_neg, zpow_natCast]
    rw [inv_mul_le_iff₀ (power k), mul_comm (2 ^ k : ℚ)]
    exact_mod_cast Iff.rfl

/-- The logarithm that rounding goes by is that of the quotient. -/
theorem floorLog2_eq (positive : 0 < num) (positive' : 0 < den) :
    floorLog2 num den = Int.log 2 (num / den : ℚ) := by
  have quotient : (0 : ℚ) < num / den :=
    div_pos (Nat.cast_pos.2 positive) (Nat.cast_pos.2 positive')
  have log_le (e : Int) : (2 : ℚ) ^ e ≤ num / den ↔ e ≤ Int.log 2 (num / den : ℚ) :=
    Int.zpow_le_iff_le_log Nat.one_lt_two quotient
  have lower : (2 : ℚ) ^ ((num.log2 : Int) - (den.log2 + 1 : Nat)) ≤ num / den := by
    rw [zpow_sub₀ two_ne_zero, zpow_natCast, zpow_natCast]
    have top : (2 : ℚ) ^ num.log2 ≤ num := by
      exact_mod_cast Nat.log2_self_le (Nat.ne_of_gt positive)
    have bottom : (den : ℚ) ≤ 2 ^ (den.log2 + 1) := by exact_mod_cast Nat.le_of_lt Nat.lt_log2_self
    exact div_le_div₀ (Nat.cast_nonneg _) top (Nat.cast_pos.2 positive') bottom
  have upper : num / den < (2 : ℚ) ^ ((num.log2 + 1 : Nat) - (den.log2 : Int)) := by
    rw [zpow_sub₀ two_ne_zero, zpow_natCast, zpow_natCast]
    have top : (num : ℚ) < 2 ^ (num.log2 + 1) := by exact_mod_cast Nat.lt_log2_self
    have bottom : (2 : ℚ) ^ den.log2 ≤ den := by
      exact_mod_cast Nat.log2_self_le (Nat.ne_of_gt positive')
    exact div_lt_div₀ top bottom (by positivity) (by positivity)
  rw [log_le] at lower
  rw [← not_le, log_le] at upper
  simp only [floorLog2, two_zpow_le_div positive', log_le]
  split <;> omega

theorem floorLog2_mul_right (positive : 0 < num) (positive' : 0 < den) {scale : Nat}
    (some : 0 < scale) : floorLog2 (num * scale) (den * scale) = floorLog2 num den := by
  rw [floorLog2_eq (Nat.mul_pos positive some) (Nat.mul_pos positive' some),
    floorLog2_eq positive positive', Nat.cast_mul, Nat.cast_mul,
    mul_div_mul_right _ _ (Nat.cast_ne_zero.2 (Nat.ne_of_gt some))]

theorem roundMagnitude_mul_right (num : Nat) (positive : 0 < den) {scale : Nat}
    (some : 0 < scale) : roundMagnitude (num * scale) (den * scale) = roundMagnitude num den := by
  rcases Nat.eq_zero_or_pos num with rfl | nonzero
  · simp [roundMagnitude]
  have moved (a b : Nat) : a * scale * b = a * b * scale := Nat.mul_right_comm a scale b
  have nonzero' : num * scale ≠ 0 := Nat.ne_of_gt (Nat.mul_pos nonzero some)
  simp only [roundMagnitude, if_neg nonzero', if_neg (Nat.ne_of_gt nonzero), moved,
    floorLog2_mul_right nonzero positive some, divNearestEven_mul_right _ _ some]

/-- Equal quotients are rounded to the same magnitude. -/
theorem roundMagnitude_congr (positive : 0 < den) (positive' : 0 < den')
    (same : (num / den : ℚ) = num' / den') : roundMagnitude num den = roundMagnitude num' den' := by
  have bottom : (den : ℚ) ≠ 0 := Nat.cast_ne_zero.2 (Nat.ne_of_gt positive)
  have bottom' : (den' : ℚ) ≠ 0 := Nat.cast_ne_zero.2 (Nat.ne_of_gt positive')
  have crossed : num * den' = num' * den := by exact_mod_cast (div_eq_div_iff bottom bottom').1 same
  rw [← roundMagnitude_mul_right num positive positive', crossed, Nat.mul_comm den,
    roundMagnitude_mul_right num' positive' positive]

theorem roundMagnitude_le (num den : Nat) : roundMagnitude num den ≤ infinityBits := by
  unfold roundMagnitude
  split
  · exact Nat.zero_le _
  · exact Nat.min_le_right _ _

/-! ## Sign and magnitude -/

theorem ofParts_self (x : Number) : ofParts x.isNegative x.magnitude = x := by
  obtain ⟨bits⟩ := x
  have bound : bits.toNat < 2 * signBit := bits.toNat_lt
  have same : (if signBit ≤ bits.toNat then signBit + bits.toNat % signBit
      else bits.toNat % signBit) = bits.toNat := by
    rcases Nat.lt_or_ge bits.toNat signBit with small | large
    · rw [if_neg (Nat.not_le.2 small), Nat.mod_eq_of_lt small]
    · rw [if_pos large, Nat.mod_eq_sub_mod large, Nat.mod_eq_of_lt (by omega)]
      omega
  simp [ofParts, isNegative, magnitude, same]

theorem neg_ofParts {magnitude : Nat} (bound : magnitude < signBit) :
    -ofParts false magnitude = ofParts true magnitude := by
  show ofParts (!(ofParts false magnitude).isNegative) (ofParts false magnitude).magnitude = _
  rw [isNegative_ofParts _ bound, magnitude_ofParts _ bound]
  rfl

/-! ## Whole numbers -/

theorem unitsPerOne_eq : unitsPerOne = 2 ^ exactPlaces := by
  unfold unitsPerOne
  generalize exactPlaces = places
  rfl

theorem unitsPerOne_pos : 0 < unitsPerOne := by
  rw [unitsPerOne_eq]
  exact Nat.two_pow_pos _

variable {x y : Number} {n m : Nat}

/-- The exact value of a number that is not negative is not negative either. -/
theorem toRat_nonneg (h : atMost 0 x) : 0 ≤ x.toRat := by
  rw [toRat, (nonNegative_iff.2 h).units_eq]
  exact Rat.mkRat_nonneg (Int.natCast_nonneg _) _

/-- The exact value of a positive number is positive. -/
theorem toRat_pos (h : less 0 x) : 0 < x.toRat := by
  have nonNegative : NonNegative x := nonNegative_iff.2 (atMost_of_less h)
  have positive : 0 < x.magnitude := by
    obtain ⟨-, -, lt⟩ := less_iff.1 h
    rw [nonNegative.orderKey_eq] at lt
    have zero : (0 : Number).orderKey = 0 := by decide +kernel
    omega
  have units : 0 < magnitudeUnits x.magnitude :=
    (by decide : 0 < magnitudeUnits 1).trans_le (magnitudeUnits_mono positive)
  rw [toRat, nonNegative.units_eq]
  exact Rat.mkRat_pos (Int.natCast_pos.2 units) unitsPerOne_pos.ne'

/-- The number is exactly this natural number. -/
structure Is (x : Number) (n : Nat) : Prop where
  finite : x.magnitude < infinityBits
  plus : x.isNegative = false
  value : magnitudeUnits x.magnitude = n * unitsPerOne

/-- A significand of 53 bits has a magnitude in each binade. -/
theorem magnitudeUnits_significand {m : Nat} (steps : Nat) (least : binade ≤ m)
    (most : m < 2 * binade) : magnitudeUnits (steps * binade + m) = m * Nat.pow 2 steps := by
  have carry : steps * binade + m = (m - binade) + binade * (steps + 1) := by
    rw [Nat.mul_succ, Nat.mul_comm binade]
    omega
  have below : m - binade < binade := by omega
  have binade_pos : 0 < binade := by decide
  rw [magnitudeUnits, carry, Nat.add_mul_div_left _ _ binade_pos, Nat.div_eq_of_lt below,
    Nat.zero_add, Nat.add_mul_mod_self_left, Nat.mod_eq_of_lt below]
  simp only [Nat.add_one_ne_zero, if_false, Nat.add_sub_cancel, Nat.add_sub_cancel' least]

/-- A natural number whose exact value is that of a magnitude rounds to that magnitude. -/
theorem is_ofNat (magnitude : Nat) (finite : magnitude < infinityBits)
    (value : magnitudeUnits magnitude = n * unitsPerOne) : (ofNat n).Is n := by
  have whole : roundMagnitude n 1 = magnitude := by
    rw [← roundMagnitude_mul_right n Nat.one_pos unitsPerOne_pos, Nat.one_mul,
      roundMagnitude_units, ← value, nearestMagnitude_magnitudeUnits]
    exact Nat.min_eq_left (Nat.le_of_lt finite)
  have bound : magnitude < signBit := Nat.lt_trans finite (by decide)
  have parts : ofNat n = ofParts false magnitude := by rw [ofNat, ofFraction, whole]
  rw [parts]
  exact ⟨by rwa [magnitude_ofParts _ bound], isNegative_ofParts _ bound,
    by rw [magnitude_ofParts _ bound, value]⟩

/-- At most 53 binary digits with zeros after them are the exact value of a magnitude. -/
theorem exists_magnitude {odd zeros : Nat} (few : odd < 2 ^ 53) (least : 52 ≤ zeros)
    (near : zeros ≤ 1974) : ∃ magnitude < infinityBits,
      magnitudeUnits magnitude = odd * 2 ^ zeros := by
  rcases Nat.eq_zero_or_pos odd with rfl | positive
  · exact ⟨0, by decide, by simp [magnitudeUnits]⟩
  have digits : odd.log2 < 53 := (Nat.log2_lt (Nat.ne_of_gt positive)).2 few
  -- The significand is shifted up to the 53 bits of its binade.
  obtain ⟨shift, full⟩ : ∃ shift, odd.log2 + shift = 52 := ⟨52 - odd.log2, by omega⟩
  have enough : binade ≤ odd * 2 ^ shift := by
    rw [binade_eq, ← full, Nat.pow_add]
    exact Nat.mul_le_mul_right _ (Nat.log2_self_le (Nat.ne_of_gt positive))
  have most : odd * 2 ^ shift < 2 * binade := by
    have double : 2 * binade = 2 ^ (odd.log2 + 1) * 2 ^ shift := by
      rw [binade_eq, ← Nat.pow_add, Nat.add_right_comm, full, ← Nat.pow_succ']
    rw [double]
    exact Nat.mul_lt_mul_of_pos_right Nat.lt_log2_self (Nat.two_pow_pos _)
  obtain ⟨steps, moved⟩ : ∃ steps, shift + steps = zeros := ⟨zeros - shift, by omega⟩
  refine ⟨steps * binade + odd * 2 ^ shift, ?_, ?_⟩
  · have top : infinityBits = 2047 * binade := by decide
    have := Nat.mul_le_mul_right binade (by omega : steps ≤ 2000)
    omega
  · rw [magnitudeUnits_significand steps enough most, Nat.mul_assoc, Nat.pow_eq, ← Nat.pow_add,
      moved]

/-- A natural number of at most 53 binary digits and zeros after them is a number. -/
theorem is_ofNat_mul_two_pow {odd zeros : Nat} (few : odd < 2 ^ 53) (near : zeros ≤ 900) :
    (ofNat (odd * 2 ^ zeros)).Is (odd * 2 ^ zeros) := by
  have room : 52 ≤ zeros + exactPlaces ∧ zeros + exactPlaces ≤ 1974 := by
    simp only [exactPlaces]
    omega
  obtain ⟨magnitude, finite, value⟩ := exists_magnitude few room.1 room.2
  refine is_ofNat magnitude finite ?_
  rw [value, unitsPerOne_eq, Nat.pow_add, Nat.mul_assoc]

theorem is_ofNat_of_lt (few : n < 2 ^ 53) : (ofNat n).Is n := by
  simpa using is_ofNat_mul_two_pow few (Nat.zero_le 900)

/-- The first twenty-two powers of ten are numbers. -/
theorem is_powerOfTen {k : Nat} (near : k ≤ 22) : (powerOfTen k).Is (10 ^ k) := by
  have few : 5 ^ k < 2 ^ 53 :=
    Nat.lt_of_le_of_lt (Nat.pow_le_pow_right (by decide) near) (by decide)
  have split : 10 ^ k = 5 ^ k * 2 ^ k := by rw [← Nat.mul_pow]
  show (ofNat (10 ^ k)).Is (10 ^ k)
  rw [split]
  exact is_ofNat_mul_two_pow few (by omega)

namespace Is

theorem isFinite (is : x.Is n) : x.isFinite = true := decide_eq_true is.finite

theorem isNaN (is : x.Is n) : x.isNaN = false :=
  decide_eq_false (Nat.not_lt_of_gt is.finite)

theorem units (is : x.Is n) : x.units.natAbs = n * unitsPerOne := by
  rw [Number.units, is.plus, if_neg Bool.false_ne_true, Int.natAbs_natCast, is.value]

theorem isZero (is : x.Is n) (positive : 0 < n) : x.isZero = false := by
  rw [Number.isZero, beq_eq_false_iff_ne]
  intro zero
  have value := is.value
  rw [zero, show magnitudeUnits 0 = 0 from rfl] at value
  exact Nat.ne_of_lt (Nat.mul_pos positive unitsPerOne_pos) value

/-- The quotient of natural numbers that are numbers is the nearest to the true one. -/
theorem quotient (hx : x.Is n) (hy : y.Is m) (positive : 0 < m) :
    x.quotient y = ofFraction false n m := by
  rw [Number.quotient, hx.plus, hy.plus, hx.units, hy.units, ofFraction,
    roundMagnitude_mul_right n positive unitsPerOne_pos]
  rfl

/-- The product of natural numbers that are numbers is the nearest to the true one. -/
theorem mul (hx : x.Is n) (hy : y.Is m) : x * y = ofFraction false (n * m) 1 := by
  have whole : n * unitsPerOne * (m * unitsPerOne) = n * m * (unitsPerOne * unitsPerOne) := by
    ring
  show Number.mul x y = _
  simp only [Number.mul, hx.isNaN, hy.isNaN, hx.isFinite, hy.isFinite, hx.plus, hy.plus, hx.units,
    hy.units, whole, ofFraction, Bool.false_eq_true, if_false, Bool.and_self, if_true,
    bne_self_eq_false]
  rw [← roundMagnitude_mul_right (n * m) Nat.one_pos (Nat.mul_pos unitsPerOne_pos unitsPerOne_pos),
    Nat.one_mul]

end Is

/-- What is far below the largest number is rounded to a finite one. -/
theorem roundMagnitude_lt_infinityBits (bound : n ≤ 2 ^ 127) :
    roundMagnitude n 1 < infinityBits := by
  have top : (ofNat (1 * 2 ^ 127)).Is (1 * 2 ^ 127) :=
    is_ofNat_mul_two_pow (by decide) (by decide)
  have le := nearestMagnitude_mono (Nat.mul_le_mul_right unitsPerOne bound)
  rw [← Nat.one_mul (2 ^ 127), ← top.value, nearestMagnitude_magnitudeUnits] at le
  have finite := top.finite
  rw [← roundMagnitude_mul_right n Nat.one_pos unitsPerOne_pos, Nat.one_mul, roundMagnitude_units]
  omega

end Number

/-! ## Decimals -/

namespace Decimal

open Number

variable {d : Decimal}

/-- Reading quickly is exact where the significand and the power of ten are numbers themselves. -/
theorem scaled_eq (few : d.significand < 2 ^ 53) (least : -22 ≤ d.exponent)
    (most : d.exponent ≤ 22) :
    d.scaled = some (ofFraction false d.fraction.1 d.fraction.2) := by
  have start := is_ofNat_of_lt few
  rcases Nat.eq_zero_or_pos d.significand with none | positive
  · have zero : (ofNat d.significand).isZero = true := by rw [none]; decide
    simp only [scaled, if_pos zero]
    simp [fraction, none, ofNat, ofFraction, roundMagnitude]
  have nonzero := start.isZero positive
  rcases Int.lt_or_le d.exponent 0 with down | up
  · have near : (-d.exponent).toNat ≤ 22 := by omega
    have quotient := start.quotient (is_powerOfTen near) (Nat.pow_pos (by decide))
    have whole : d.exponent.toNat = 0 := by omega
    have room : (-d.exponent).toNat ≤ largestPower := Nat.le_trans near (by decide)
    simp only [scaled, nonzero, Bool.false_eq_true, if_false, if_neg (Int.not_le.2 down),
      if_pos room, quotient, fraction, whole]
    rw [Nat.pow_eq, Nat.pow_zero, Nat.mul_one]
    rfl
  · have near : d.exponent.toNat ≤ 22 := by omega
    have product := start.mul (is_powerOfTen near)
    have bound : d.significand * 10 ^ d.exponent.toNat ≤ 2 ^ 127 :=
      calc d.significand * 10 ^ d.exponent.toNat
          ≤ 2 ^ 53 * 10 ^ 22 :=
            Nat.mul_le_mul (Nat.le_of_lt few) (Nat.pow_le_pow_right (by decide) near)
        _ ≤ 2 ^ 127 := by decide
    have magnitude := roundMagnitude_lt_infinityBits bound
    have finite : (ofFraction false (d.significand * 10 ^ d.exponent.toNat) 1).isFinite = true := by
      rw [ofFraction, isFinite, magnitude_ofParts _ (Nat.lt_trans magnitude (by decide))]
      exact decide_eq_true magnitude
    have whole : (-d.exponent).toNat = 0 := by omega
    have room : d.exponent ≤ largestPower := by simp only [largestPower]; omega
    simp only [scaled, nonzero, Bool.false_eq_true, if_false, if_pos up, if_pos room, product,
      finite, if_true, fraction, whole]
    rfl

end Decimal

end BehaviorTree
