import BehaviorTree.Number.Basic
import Mathlib.Tactic.Ring

/-!
# Rounding keeps the order

The magnitudes of numbers stand in the order of their exact values, rounding an exact value never
overtakes that of a larger one, and it gives a magnitude back from its own value. So a sum that
is exactly at least some number is still at least that number when it is rounded.
-/

namespace BehaviorTree

namespace Number

/-! ## The nearest integer -/

theorem div_le_divNearestEven (num den : Nat) : num / den ≤ divNearestEven num den := by
  simp only [divNearestEven]
  split
  · exact Nat.le_refl _
  split
  · exact Nat.le_succ _
  · exact Nat.le_add_right _ _

theorem divNearestEven_le (num den : Nat) : divNearestEven num den ≤ num / den + 1 := by
  simp only [divNearestEven]
  have parity : num / den % 2 < 2 := Nat.mod_lt _ (by omega)
  split
  · exact Nat.le_succ _
  split
  · exact Nat.le_refl _
  · omega

/-- Rounding to an integer is monotone. -/
theorem divNearestEven_mono {num num' : Nat} (den : Nat) (le : num ≤ num') :
    divNearestEven num den ≤ divNearestEven num' den := by
  rcases Nat.lt_or_eq_of_le (Nat.div_le_div_right (c := den) le) with lower | same
  · have above := divNearestEven_le num den
    have below := div_le_divNearestEven num' den
    omega
  · have rest : num % den ≤ num' % den := by
      have split := Nat.div_add_mod num den
      have split' := Nat.div_add_mod num' den
      rw [same] at split
      omega
    simp only [divNearestEven, same]
    have parity : num' / den % 2 < 2 := Nat.mod_lt _ (by omega)
    split <;> split <;> (try split) <;> (try split) <;> omega

/-- Only the quotient matters. -/
theorem divNearestEven_mul_right (num den : Nat) {scale : Nat} (positive : 0 < scale) :
    divNearestEven (num * scale) (den * scale) = divNearestEven num den := by
  have scaled (a b : Nat) : 2 * (a * scale) < b * scale ↔ 2 * a < b := by
    rw [← Nat.mul_assoc]
    exact Nat.mul_lt_mul_right positive
  have scaled' (a b : Nat) : b * scale < 2 * (a * scale) ↔ b < 2 * a := by
    rw [← Nat.mul_assoc]
    exact Nat.mul_lt_mul_right positive
  simp only [divNearestEven, Nat.mul_div_mul_right _ _ positive, Nat.mul_mod_mul_right, scaled,
    scaled']

theorem divNearestEven_mul_self (quotient : Nat) {den : Nat} (positive : 0 < den) :
    divNearestEven (quotient * den) den = quotient := by
  simp [divNearestEven, Nat.mul_div_cancel _ positive, positive]

/-! ## Magnitudes and their values -/

/-- The binade of a value in units of `2 ^ -1074`, where subnormal numbers are in the first. -/
def binadeOf (units : Nat) : Nat := units.log2 - 52

/-- The magnitude nearest to a value, before the cap at infinity. -/
def nearestMagnitude (units : Nat) : Nat :=
  binadeOf units * binade + divNearestEven units (2 ^ binadeOf units)

theorem binade_eq : binade = 2 ^ 52 := by decide

/-- The logarithm of a quotient by a power of two is exact. -/
theorem floorLog2_two_pow {units : Nat} (positive : units ≠ 0) (places : Nat) :
    floorLog2 units (Nat.pow 2 places) = (units.log2 : Int) - places := by
  have least : 2 ^ units.log2 ≤ units := Nat.log2_self_le positive
  have log : (Nat.pow 2 places).log2 = places := Nat.log2_two_pow
  have fits : 2 ^ places * 2 ^ ((units.log2 : Int) - places).toNat ≤
      units * 2 ^ (-((units.log2 : Int) - places)).toNat := by
    rcases Nat.le_total places units.log2 with large | small
    · have up : ((units.log2 : Int) - places).toNat = units.log2 - places := by omega
      have down : (-((units.log2 : Int) - places)).toNat = 0 := by omega
      rw [up, down, ← Nat.pow_add, Nat.add_sub_cancel' large, Nat.pow_zero, Nat.mul_one]
      exact least
    · have up : ((units.log2 : Int) - places).toNat = 0 := by omega
      have down : (-((units.log2 : Int) - places)).toNat = places - units.log2 := by omega
      rw [up, down, Nat.pow_zero, Nat.mul_one]
      calc 2 ^ places
          = 2 ^ units.log2 * 2 ^ (places - units.log2) := by
            rw [← Nat.pow_add, Nat.add_sub_cancel' small]
        _ ≤ units * 2 ^ (places - units.log2) := Nat.mul_le_mul_right _ least
  simp only [floorLog2, log]
  exact if_pos fits

/-- One side of a quotient scaled up to whole steps of the last place. -/
theorem divNearestEven_steps (units places : Nat) (steps : Nat) :
    (if (steps : Int) - places ≤ 0 then
      divNearestEven (units * Nat.pow 2 (places - (steps : Int)).toNat) (Nat.pow 2 places)
    else divNearestEven units (Nat.pow 2 places * Nat.pow 2 ((steps : Int) - places).toNat)) =
      divNearestEven units (2 ^ steps) := by
  split
  · rename_i small
    have down : ((places : Int) - steps).toNat = places - steps := by omega
    have whole : Nat.pow 2 places = 2 ^ steps * Nat.pow 2 (places - steps) := by
      show 2 ^ places = 2 ^ steps * 2 ^ (places - steps)
      rw [← Nat.pow_add, Nat.add_sub_cancel' (by omega)]
    rw [down, whole]
    exact divNearestEven_mul_right _ _ (Nat.two_pow_pos _)
  · rename_i large
    have up : ((steps : Int) - places).toNat = steps - places := by omega
    have whole : Nat.pow 2 places * Nat.pow 2 (steps - places) = 2 ^ steps := by
      show 2 ^ places * 2 ^ (steps - places) = 2 ^ steps
      rw [← Nat.pow_add, Nat.add_sub_cancel' (by omega)]
    rw [up, whole]

/-- Rounding a value in units of `2 ^ -1074` gives the nearest magnitude in its binade. -/
theorem roundMagnitude_units (units : Nat) :
    roundMagnitude units unitsPerOne = min (nearestMagnitude units) infinityBits := by
  rcases Nat.eq_zero_or_pos units with rfl | positive
  · simp [roundMagnitude, nearestMagnitude, binadeOf, divNearestEven]
  have nonzero : units ≠ 0 := Nat.ne_of_gt positive
  have places : (exactPlaces : Int) = 1074 := rfl
  have shifted : ((binadeOf units : Int) - 1022 + 1022).toNat = binadeOf units := by omega
  have small : (binadeOf units : Int) - 1022 ≤ 52 ↔
      (binadeOf units : Int) - exactPlaces ≤ 0 := by omega
  have down : 52 - ((binadeOf units : Int) - 1022) = exactPlaces - (binadeOf units : Int) := by
    omega
  have up : (binadeOf units : Int) - 1022 - 52 = (binadeOf units : Int) - exactPlaces := by omega
  have exponent : max (floorLog2 units unitsPerOne) (-1022) = (binadeOf units : Int) - 1022 := by
    unfold unitsPerOne
    rw [floorLog2_two_pow nonzero exactPlaces, binadeOf]
    omega
  simp only [roundMagnitude, if_neg nonzero, exponent, shifted, nearestMagnitude, down, up, small]
  unfold unitsPerOne
  rw [divNearestEven_steps]

/-- The nearest magnitude grows with the value. -/
theorem nearestMagnitude_mono {units units' : Nat} (le : units ≤ units') :
    nearestMagnitude units ≤ nearestMagnitude units' := by
  rcases Nat.eq_zero_or_pos units with rfl | positive
  · simp [nearestMagnitude, binadeOf, divNearestEven]
  have log : units.log2 ≤ units'.log2 := (Nat.le_log2 (by omega)).2 <|
    Nat.le_trans (Nat.log2_self_le (by omega)) le
  have places : binadeOf units ≤ binadeOf units' := Nat.sub_le_sub_right log 52
  rcases Nat.lt_or_eq_of_le places with lower | same
  · -- A value of a lower binade rounds at most to the first magnitude of the next one.
    have top : divNearestEven units (2 ^ binadeOf units) ≤ 2 ^ 53 := by
      have bound : units < 2 ^ 53 * 2 ^ binadeOf units := by
        rw [← Nat.pow_add]
        refine Nat.lt_of_lt_of_le Nat.lt_log2_self (Nat.pow_le_pow_right (by omega) ?_)
        simp only [binadeOf]
        omega
      have quotient := (Nat.div_lt_iff_lt_mul (Nat.two_pow_pos _)).2 bound
      have above := divNearestEven_le units (2 ^ binadeOf units)
      omega
    have bottom : 2 ^ 52 ≤ divNearestEven units' (2 ^ binadeOf units') := by
      refine Nat.le_trans ?_ (div_le_divNearestEven _ _)
      rw [Nat.le_div_iff_mul_le (Nat.two_pow_pos _), ← Nat.pow_add]
      refine Nat.le_trans (Nat.pow_le_pow_right (by omega) ?_) (Nat.log2_self_le (by omega))
      simp only [binadeOf] at lower ⊢
      omega
    simp only [nearestMagnitude, binade_eq]
    omega
  · simp only [nearestMagnitude, same]
    exact Nat.add_le_add_left (divNearestEven_mono _ le) _

/-- Rounding gives a magnitude back from its exact value. -/
theorem nearestMagnitude_magnitudeUnits (magnitude : Nat) :
    nearestMagnitude (magnitudeUnits magnitude) = magnitude := by
  have parts := Nat.div_add_mod magnitude binade
  have fraction : magnitude % binade < binade := Nat.mod_lt _ (by decide)
  simp only [magnitudeUnits]
  generalize magnitude / binade = exponent at parts ⊢
  generalize magnitude % binade = rest at parts fraction ⊢
  split
  · subst exponent
    have first : binadeOf rest = 0 := by
      rcases Nat.eq_zero_or_pos rest with rfl | positive
      · simp [binadeOf]
      · have log := (Nat.log2_lt (Nat.ne_of_gt positive)).2 (binade_eq ▸ fraction)
        simp only [binadeOf]
        omega
    have whole := divNearestEven_mul_self rest Nat.one_pos
    simp only [nearestMagnitude, first, Nat.pow_zero]
    rw [Nat.mul_one] at whole
    omega
  · show nearestMagnitude ((binade + rest) * 2 ^ (exponent - 1)) = magnitude
    have here : binadeOf ((binade + rest) * 2 ^ (exponent - 1)) = exponent - 1 := by
      have log : ((binade + rest) * 2 ^ (exponent - 1)).log2 = 52 + (exponent - 1) := by
        rw [Nat.log2_eq_iff (Nat.ne_of_gt (Nat.mul_pos (by omega) (Nat.two_pow_pos _)))]
        constructor
        · rw [Nat.pow_add]
          exact Nat.mul_le_mul_right _ (by rw [binade_eq]; omega)
        · rw [Nat.add_right_comm, Nat.pow_add]
          exact Nat.mul_lt_mul_of_pos_right (by rw [binade_eq] at *; omega) (Nat.two_pow_pos _)
      rw [binadeOf, log, Nat.add_sub_cancel_left]
    rw [nearestMagnitude, here, divNearestEven_mul_self _ (Nat.two_pow_pos _)]
    have split : exponent * binade = (exponent - 1) * binade + binade := by
      rw [← Nat.succ_mul]
      congr 1
      omega
    rw [Nat.mul_comm binade] at parts
    omega

/-- Magnitudes stand in the order of their exact values. -/
theorem magnitudeUnits_mono {magnitude magnitude' : Nat} (le : magnitude ≤ magnitude') :
    magnitudeUnits magnitude ≤ magnitudeUnits magnitude' := by
  apply Nat.le_of_not_lt
  intro overtaken
  have back := nearestMagnitude_mono (Nat.le_of_lt overtaken)
  rw [nearestMagnitude_magnitudeUnits, nearestMagnitude_magnitudeUnits] at back
  rw [Nat.le_antisymm le back] at overtaken
  exact Nat.lt_irrefl _ overtaken

/-! ## The order of numbers -/

theorem toNat_ofParts (negative : Bool) {magnitude : Nat} (bound : magnitude < signBit) :
    (ofParts negative magnitude).bits.toNat =
      if negative then signBit + magnitude else magnitude := by
  apply UInt64.toNat_ofNat_of_lt'
  simp only [signBit, UInt64.size] at bound ⊢
  split <;> omega

theorem isNegative_ofParts (negative : Bool) {magnitude : Nat} (bound : magnitude < signBit) :
    (ofParts negative magnitude).isNegative = negative := by
  cases negative <;> simp [isNegative, toNat_ofParts _ bound, bound]

theorem magnitude_ofParts (negative : Bool) {magnitude : Nat} (bound : magnitude < signBit) :
    (ofParts negative magnitude).magnitude = magnitude := by
  cases negative <;> simp [Number.magnitude, toNat_ofParts _ bound, Nat.mod_eq_of_lt bound]

theorem atMost_iff {x y : Number} :
    atMost x y = true ↔ x.isNaN = false ∧ y.isNaN = false ∧ x.orderKey ≤ y.orderKey := by
  simp [atMost, and_assoc]

theorem less_iff {x y : Number} :
    less x y = true ↔ x.isNaN = false ∧ y.isNaN = false ∧ x.orderKey < y.orderKey := by
  simp [less, and_assoc]

theorem atMost_trans {x y z : Number} (first : atMost x y) (second : atMost y z) :
    atMost x z := by
  obtain ⟨real, -, le⟩ := atMost_iff.1 first
  obtain ⟨-, real', le'⟩ := atMost_iff.1 second
  exact atMost_iff.2 ⟨real, real', le.trans le'⟩

theorem less_of_atMost_of_less {x y z : Number} (first : atMost x y) (second : less y z) :
    less x z := by
  obtain ⟨real, -, le⟩ := atMost_iff.1 first
  obtain ⟨-, real', lt⟩ := less_iff.1 second
  exact less_iff.2 ⟨real, real', Int.lt_of_le_of_lt le lt⟩

theorem atMost_of_not_less {x y : Number} (hx : x.isNaN = false) (hy : y.isNaN = false)
    (le : ¬ less x y) : atMost y x := by
  refine atMost_iff.2 ⟨hy, hx, Int.not_lt.1 fun lt => ?_⟩
  exact le (less_iff.2 ⟨hx, hy, lt⟩)

theorem less_of_not_atMost {x y : Number} (hx : x.isNaN = false) (hy : y.isNaN = false)
    (lt : ¬ atMost x y) : less y x := by
  refine less_iff.2 ⟨hy, hx, Int.not_le.1 fun le => ?_⟩
  exact lt (atMost_iff.2 ⟨hx, hy, le⟩)

theorem atMost_of_less {x y : Number} (lt : less x y) : atMost x y := by
  obtain ⟨hx, hy, lt⟩ := less_iff.1 lt
  exact atMost_iff.2 ⟨hx, hy, Int.le_of_lt lt⟩

/-- A number moved into an interval is there. -/
theorem atMost_clamp {x lo hi : Number} (real : x.isNaN = false) (ordered : atMost lo hi) :
    atMost lo (x.clamp lo hi) ∧ atMost (x.clamp lo hi) hi := by
  obtain ⟨realLo, realHi, -⟩ := atMost_iff.1 ordered
  unfold clamp
  split_ifs with below above
  · exact ⟨atMost_iff.2 ⟨realLo, realLo, Int.le_refl _⟩, ordered⟩
  · exact ⟨ordered, atMost_iff.2 ⟨realHi, realHi, Int.le_refl _⟩⟩
  · exact ⟨atMost_of_not_less real realLo below, atMost_of_not_less realHi real above⟩

/-! ## Sums of numbers that are not negative -/

/-- The number is at least zero, of whichever sign the zero is; it may be infinite. -/
structure NonNegative (x : Number) : Prop where
  real : x.magnitude ≤ infinityBits
  sign : x.isNegative = true → x.magnitude = 0

theorem nonNegative_iff {x : Number} : NonNegative x ↔ atMost 0 x = true := by
  have zero : (0 : Number).isNaN = false ∧ (0 : Number).orderKey = 0 := by decide +kernel
  rw [atMost_iff, zero.1, zero.2]
  simp only [true_and, isNaN, decide_eq_false_iff_not, Nat.not_lt]
  constructor
  · rintro ⟨real, sign⟩
    refine ⟨real, ?_⟩
    simp only [orderKey]
    split
    · rename_i negative
      simp [sign negative]
    · omega
  · rintro ⟨real, sign⟩
    refine ⟨real, fun negative => ?_⟩
    simp only [orderKey, if_pos negative] at sign
    omega

namespace NonNegative

variable {x y : Number}

theorem orderKey_eq (h : NonNegative x) : x.orderKey = x.magnitude := by
  simp only [orderKey]
  split
  · rename_i negative
    simp [h.sign negative]
  · rfl

theorem isNaN_eq (h : NonNegative x) : x.isNaN = false := by
  simpa [isNaN] using h.real

theorem units_eq (h : NonNegative x) : x.units = magnitudeUnits x.magnitude := by
  simp only [units]
  split
  · rename_i negative
    simp [h.sign negative, magnitudeUnits]
  · rfl

theorem isNegative_eq (h : NonNegative x) (infinite : x.magnitude = infinityBits) :
    x.isNegative = false := by
  apply Bool.eq_false_iff.2
  intro negative
  have zero := h.sign negative
  rw [infinite] at zero
  exact absurd zero (by decide)

theorem atMost_iff_magnitude (hx : NonNegative x) (hy : NonNegative y) :
    atMost x y = true ↔ x.magnitude ≤ y.magnitude := by
  simp [atMost_iff, hx.isNaN_eq, hy.isNaN_eq, hx.orderKey_eq, hy.orderKey_eq]

end NonNegative

/-- The magnitude of the sum of two numbers with given magnitudes and no sign. -/
def sumMagnitude (x y : Nat) : Nat :=
  if x < infinityBits ∧ y < infinityBits then
    min (nearestMagnitude (magnitudeUnits x + magnitudeUnits y)) infinityBits
  else infinityBits

theorem sumMagnitude_mono {x x' : Nat} (y : Nat) (le : x ≤ x') :
    sumMagnitude x y ≤ sumMagnitude x' y := by
  have round := nearestMagnitude_mono
    (Nat.add_le_add_right (magnitudeUnits_mono le) (magnitudeUnits y))
  simp only [sumMagnitude]
  split <;> split <;> omega

theorem le_sumMagnitude {x : Nat} (y : Nat) (real : x ≤ infinityBits) : x ≤ sumMagnitude x y := by
  have round := nearestMagnitude_mono (Nat.le_add_right (magnitudeUnits x) (magnitudeUnits y))
  rw [nearestMagnitude_magnitudeUnits] at round
  simp only [sumMagnitude]
  split <;> omega

/-- An exact sum that is not negative is rounded to a number that is not. -/
theorem nonNegative_ofUnits (total : Nat) (zeroIsNegative : Bool) :
    NonNegative (ofUnits total zeroIsNegative) ∧
      (ofUnits total zeroIsNegative).magnitude = min (nearestMagnitude total) infinityBits := by
  have bound : min (nearestMagnitude total) infinityBits < signBit :=
    Nat.lt_of_le_of_lt (Nat.min_le_right _ _) (by decide)
  simp only [ofUnits, ofFraction, Int.natAbs_natCast, roundMagnitude_units]
  refine ⟨⟨?_, fun negative => ?_⟩, magnitude_ofParts _ bound⟩
  · rw [magnitude_ofParts _ bound]
    exact Nat.min_le_right _ _
  · rw [isNegative_ofParts _ bound] at negative
    rw [magnitude_ofParts _ bound]
    split at negative
    · rename_i zero
      have none : total = 0 := by omega
      simp [none, nearestMagnitude, binadeOf, divNearestEven]
    · simp at negative
      omega

/-- The sum of two numbers that are not negative is not negative. -/
theorem NonNegative.add {x y : Number} (hx : NonNegative x) (hy : NonNegative y) :
    NonNegative (Number.add x y) ∧
      (Number.add x y).magnitude = sumMagnitude x.magnitude y.magnitude := by
  have real := hx.real
  have real' := hy.real
  simp only [Number.add, hx.isNaN_eq, hy.isNaN_eq, addOrdered, Bool.false_eq_true, if_false]
  rcases Nat.lt_or_ge x.magnitude infinityBits with finite | infinite <;>
    rcases Nat.lt_or_ge y.magnitude infinityBits with finite' | infinite'
  · have units : x.units + y.units =
        (magnitudeUnits x.magnitude + magnitudeUnits y.magnitude : Nat) := by
      rw [hx.units_eq, hy.units_eq, Int.natCast_add]
    simp only [isFinite, finite, finite', decide_true, units, sumMagnitude, and_self, if_true]
    exact nonNegative_ofUnits _ _
  · have top : y.magnitude = infinityBits := by omega
    simpa [isFinite, finite, top, sumMagnitude] using hy
  · have top : x.magnitude = infinityBits := by omega
    simpa [isFinite, finite', top, sumMagnitude] using hx
  · have top : x.magnitude = infinityBits := by omega
    have top' : y.magnitude = infinityBits := by omega
    simpa [isFinite, top, top', sumMagnitude, hx.isNegative_eq top, hy.isNegative_eq top']
      using hx

/-- Adding a number that is not negative does not decrease one that is not. -/
theorem atMost_add {x y : Number} (hx : atMost 0 x) (hy : atMost 0 y) :
    atMost x (Number.add x y) := by
  have nonneg := nonNegative_iff.2 hx
  obtain ⟨sum, magnitude⟩ := nonneg.add (nonNegative_iff.2 hy)
  rw [nonneg.atMost_iff_magnitude sum, magnitude]
  exact le_sumMagnitude _ nonneg.real

/-- Adding the same number, which is not negative, keeps the order of numbers that are not. -/
theorem add_mono {x x' y : Number} (hx : atMost 0 x) (hy : atMost 0 y) (le : atMost x x') :
    atMost (Number.add x y) (Number.add x' y) := by
  have nonneg := nonNegative_iff.2 hx
  have nonneg' := nonNegative_iff.2 (atMost_trans hx le)
  obtain ⟨sum, magnitude⟩ := nonneg.add (nonNegative_iff.2 hy)
  obtain ⟨sum', magnitude'⟩ := nonneg'.add (nonNegative_iff.2 hy)
  rw [nonneg.atMost_iff_magnitude nonneg'] at le
  rw [sum.atMost_iff_magnitude sum', magnitude, magnitude']
  exact sumMagnitude_mono _ le

end Number

end BehaviorTree
