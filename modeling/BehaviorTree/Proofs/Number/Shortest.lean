import BehaviorTree.Proofs.Number.Exact

/-!
# The shortest decimal rounds to its number

The magnitude nearest to a decimal depends on its value alone (`Decimal.nearest_congr`). So zeros
may be moved between significand and exponent, and the decimal that `Number.shortest` finds, on a
grid or at the end of its search, is nearest to the number that it was found for
(`Number.nearest_shortest`).
-/

namespace BehaviorTree

namespace Decimal

open Number

variable {d e : Decimal} {x : Number}

/-- The exact value of a decimal. -/
def value (d : Decimal) : ℚ := d.significand * 10 ^ d.exponent

/-- The magnitude nearest to a decimal. -/
def nearest (d : Decimal) : Nat := roundMagnitude d.fraction.1 d.fraction.2

theorem fraction_pos (d : Decimal) : 0 < d.fraction.2 := Nat.pow_pos (by decide)

theorem fraction_eq (d : Decimal) : (d.fraction.1 / d.fraction.2 : ℚ) = d.value := by
  simp only [fraction, value, Nat.pow_eq, Nat.cast_mul, Nat.cast_pow, Nat.cast_ofNat, mul_div_assoc]
  congr 1
  rw [← zpow_natCast, ← zpow_natCast, ← zpow_sub₀ (by norm_num)]
  congr 1
  omega

/-- Decimals of one value are nearest to the same magnitude. -/
theorem nearest_congr (same : d.value = e.value) : d.nearest = e.nearest :=
  roundMagnitude_congr d.fraction_pos e.fraction_pos (by rw [fraction_eq, fraction_eq, same])

/-- Moving zeros into the exponent keeps the value. -/
theorem value_trimZeros (d : Decimal) (limit : Nat) : (d.trimZeros limit).value = d.value := by
  induction limit generalizing d with
  | zero => rfl
  | succ limit ih =>
    rw [trimZeros]
    split
    · next zero =>
      have whole : d.significand = d.significand / 10 * 10 := by omega
      rw [ih, value, value]
      conv_rhs => rw [whole]
      rw [zpow_add_one₀ (by norm_num), Nat.cast_mul]
      ring
    · rfl

/-- A decimal that is read as a number is nearest to it. -/
theorem nearest_of_toNumber (finite : x.isFinite = true) (nonzero : x.isZero = false)
    (rounds : d.toNumber x.isNegative = x) : d.nearest = x.magnitude := by
  unfold toNumber at rounds
  extract_lets length at rounds
  split at rounds
  · rw [← rounds, isZero, magnitude_ofParts _ (by decide)] at nonzero
    cases nonzero
  split at rounds
  · rw [← rounds, isFinite, magnitude_ofParts _ (by decide)] at finite
    cases finite
  · have bound : roundMagnitude d.fraction.1 d.fraction.2 < signBit :=
      Nat.lt_of_le_of_lt (roundMagnitude_le _ _) (by decide)
    conv_rhs => rw [← rounds, ofFraction, magnitude_ofParts _ bound]
    rfl

end Decimal

namespace Number

variable {x : Number}

/-- The decimal that is found on a grid is read as the number. -/
theorem toNumber_of_nearestOnGrid {rule : TieRule} {place : Int} {d : Decimal}
    (found : nearestOnGrid rule x place = some d) : d.toNumber x.isNegative = x := by
  unfold nearestOnGrid at found
  extract_lets num den below rest hit low high at found
  have rounds {d : Decimal} (is : hit d = true) : d.toNumber x.isNegative = x := eq_of_beq is
  cases hitLow : hit low <;> cases hitHigh : hit high <;> simp only [hitLow, hitHigh] at found
  · cases found
  · exact Option.some.inj found ▸ rounds hitHigh
  · exact Option.some.inj found ▸ rounds hitLow
  · have either : d = low ∨ d = high := by
      split at found
      · exact .inl (Option.some.inj found).symm
      · split at found
        · exact .inr (Option.some.inj found).symm
        · cases rule with
          | up => exact .inr (Option.some.inj found).symm
          | toEven =>
            have chosen := Option.some.inj found
            split at chosen
            · exact .inl chosen.symm
            · exact .inr chosen.symm
    rcases either with rfl | rfl
    · exact rounds hitLow
    · exact rounds hitHigh

/-- The exact decimal of a number is nearest to it. -/
theorem nearest_exactDecimal (finite : x.isFinite = true) :
    x.exactDecimal.nearest = x.magnitude := by
  have quotient (units places : Nat) : (⟨units * Nat.pow 5 places, -places⟩ : Decimal).nearest =
      roundMagnitude units (2 ^ places) := by
    have split : Nat.pow 10 places = 2 ^ places * Nat.pow 5 places := by
      rw [Nat.pow_eq, Nat.pow_eq, ← Nat.mul_pow]
    have whole : Nat.pow 10 0 = 1 := rfl
    have up : (-(places : Int)).toNat = 0 := by omega
    simp only [Decimal.nearest, Decimal.fraction, neg_neg, Int.toNat_natCast, up, split, whole,
      Nat.mul_one]
    exact roundMagnitude_mul_right units (Nat.two_pow_pos _) (Nat.pow_pos (by decide))
  have below : x.magnitude < infinityBits := of_decide_eq_true finite
  rw [exactDecimal, quotient, ← unitsPerOne_eq, roundMagnitude_units,
    nearestMagnitude_magnitudeUnits]
  exact Nat.min_eq_left (Nat.le_of_lt below)

/-- The shortest decimal of a number other than zero is nearest to it. -/
theorem nearest_shortest (rule : TieRule) (finite : x.isFinite = true)
    (nonzero : x.isZero = false) : (x.shortest rule).nearest = x.magnitude := by
  unfold shortest
  extract_lets leading found d
  rw [Decimal.nearest_congr (d.value_trimZeros _)]
  cases search : found with
  | some hit =>
    obtain ⟨digits, -, onGrid⟩ := List.exists_of_findSome?_eq_some search
    rw [show d = hit by simp only [d, search, Option.getD_some]]
    exact Decimal.nearest_of_toNumber finite nonzero (toNumber_of_nearestOnGrid onGrid)
  | none =>
    rw [show d = x.exactDecimal by simp only [d, search, Option.getD_none]]
    exact nearest_exactDecimal finite

theorem significand_shortest_pos (rule : TieRule) (finite : x.isFinite = true)
    (nonzero : x.isZero = false) : 0 < (x.shortest rule).significand := by
  rw [Nat.pos_iff_ne_zero]
  intro none
  have nearest := nearest_shortest rule finite nonzero
  rw [Decimal.nearest, Decimal.fraction, none, Nat.zero_mul] at nearest
  rw [isZero, ← nearest] at nonzero
  cases nonzero

end Number

end BehaviorTree
