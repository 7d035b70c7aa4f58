import BehaviorTree.Execution.Tick
import BehaviorTree.Proofs.Number.Exact

/-!
# Counts with a tolerance

Counts are compared as rounded numbers with a tolerance. While they are small that is the comparison
of the natural numbers themselves (`countReaches_ofNat`): the sum of a count and the tolerance is
not rounded up to the next natural number.
-/

namespace BehaviorTree

namespace Number

/-- The tolerance is at most a half, which has as many binary places as one less. -/
theorem exists_half : ∃ places, exactPlaces = places + 1 ∧ 52 ≤ places ∧ places ≤ 1974 ∧
    magnitudeUnits timeTolerance.magnitude ≤ 2 ^ places :=
  ⟨1073, rfl, by decide, by decide, by decide +kernel⟩

variable {x y : Number} {n m : Nat}

theorem Is.nonNegative (is : x.Is n) : NonNegative x :=
  ⟨Nat.le_of_lt is.finite, fun negative => absurd negative (by simp [is.plus])⟩

theorem Is.atMost_iff (hx : x.Is n) (hy : y.Is m) : atMost x y = true ↔ n ≤ m := by
  rw [hx.nonNegative.atMost_iff_magnitude hy.nonNegative]
  constructor
  · intro le
    have units := magnitudeUnits_mono le
    rw [hx.value, hy.value] at units
    exact Nat.le_of_mul_le_mul_right units unitsPerOne_pos
  · intro le
    have rounded := nearestMagnitude_mono (Nat.mul_le_mul_right unitsPerOne le)
    rwa [← hx.value, ← hy.value, nearestMagnitude_magnitudeUnits,
      nearestMagnitude_magnitudeUnits] at rounded

theorem not_atMost_of_less (lt : less x y = true) : atMost y x = false := by
  obtain ⟨-, -, lt⟩ := less_iff.1 lt
  refine Bool.eq_false_iff.2 fun le => ?_
  obtain ⟨-, -, le⟩ := Number.atMost_iff.1 le
  omega

/-- A sum of less than a half and a natural number is not rounded up to the next one. -/
theorem nearestMagnitude_lt {places rest : Nat} (one : exactPlaces = places + 1)
    (least : 52 ≤ places) (near : places ≤ 1974) (small : rest ≤ 2 ^ places) (few : n < 2 ^ 52)
    (hy : y.Is m) (lt : n < m) : nearestMagnitude (n * unitsPerOne + rest) < y.magnitude := by
  have whole : unitsPerOne = 2 * 2 ^ places := by rw [unitsPerOne_eq, one, Nat.pow_succ']
  have positive : 0 < 2 ^ places := Nat.two_pow_pos _
  -- The number a half above is between the two.
  obtain ⟨between, -, value⟩ := exists_magnitude (by omega : 2 * n + 1 < 2 ^ 53) least near
  have value : magnitudeUnits between = n * unitsPerOne + 2 ^ places := by
    rw [value, whole]
    ring
  have below : nearestMagnitude (n * unitsPerOne + rest) ≤ between := by
    rw [← nearestMagnitude_magnitudeUnits between, value]
    exact nearestMagnitude_mono (Nat.add_le_add_left small _)
  refine Nat.lt_of_le_of_lt below (Nat.lt_of_not_le fun le => ?_)
  have units := magnitudeUnits_mono le
  have next := Nat.mul_le_mul_right unitsPerOne lt
  rw [value, hy.value] at units
  rw [Nat.succ_mul, whole] at next
  rw [whole] at units
  omega

/-- A natural number with the tolerance added stays below the next one. -/
theorem add_timeTolerance_lt (few : n < 2 ^ 52) (hx : x.Is n) (hy : y.Is m) (lt : n < m) :
    ¬ atMost y (x + timeTolerance) = true := by
  have tolerance : NonNegative timeTolerance := nonNegative_iff.2 (by decide +kernel)
  have finite : timeTolerance.magnitude < infinityBits := by decide +kernel
  obtain ⟨places, one, least, near, small⟩ := exists_half
  obtain ⟨sum, magnitude⟩ := hx.nonNegative.add tolerance
  rw [show x + timeTolerance = Number.add x timeTolerance from rfl,
    hy.nonNegative.atMost_iff_magnitude sum, magnitude, sumMagnitude, if_pos ⟨hx.finite, finite⟩,
    hx.value, Nat.not_le]
  exact Nat.lt_of_le_of_lt (Nat.min_le_left _ _)
    (nearestMagnitude_lt one least near small few hy lt)

end Number

/-- Below `2 ^ 52` a count has come up to a limit if it is not less. -/
theorem countReaches_ofNat {count limit : Nat} (few : count < 2 ^ 52) (few' : limit < 2 ^ 52) :
    countReaches count (.ofNat limit) = true ↔ limit ≤ count := by
  have counted := Number.is_ofNat_of_lt (n := count) (by omega)
  have limited := Number.is_ofNat_of_lt (n := limit) (by omega)
  rw [countReaches]
  constructor
  · intro reaches
    refine Nat.le_of_not_lt fun lt => ?_
    exact Number.add_timeTolerance_lt few counted limited lt reaches
  · intro le
    refine Number.atMost_trans ((limited.atMost_iff counted).2 le) ?_
    exact Number.atMost_add (Number.nonNegative_iff.1 counted.nonNegative) (by decide +kernel)

end BehaviorTree
