import BehaviorTree.Execution.Clock
import BehaviorTree.Proofs.Number.Exact

/-!
# Laws of time

Trees run on any clock that counts forward: adding a duration that is not negative leads to no
earlier time, and the tolerance does not change which of two times is the earlier one. Rounded
numbers have these laws, infinity included, although rounded sums are not associative. So do the
rational numbers, on which time is read exactly.
-/

namespace BehaviorTree

/-- A clock on which time does not run backwards. The laws speak of times that are not negative,
for no other ones come about in a run, and a rounded number may be no time at all. -/
class LawfulClock (T : Type) [Clock T] : Prop where
  zero_atMost_zero : Clock.atMost (Clock.zero : T) Clock.zero
  atMost_trans {s t u : T} : Clock.atMost s t → Clock.atMost t u → Clock.atMost s u
  less_of_atMost_of_less {s t u : T} : Clock.atMost s t → Clock.less t u → Clock.less s u
  atMost_add {t duration : T} : Clock.atMost Clock.zero t → Clock.atMost Clock.zero duration →
    Clock.atMost t (Clock.add t duration)
  add_tolerance_mono {s t : T} : Clock.atMost Clock.zero s → Clock.atMost s t →
    Clock.atMost (Clock.add s Clock.tolerance) (Clock.add t Clock.tolerance)
  zero_atMost_ofNumber {x : Number} : Number.atMost 0 x →
    Clock.atMost (Clock.zero : T) (Clock.ofNumber x)

instance : LawfulClock Number where
  zero_atMost_zero := by decide +kernel
  atMost_trans := Number.atMost_trans
  less_of_atMost_of_less := Number.less_of_atMost_of_less
  atMost_add := Number.atMost_add
  add_tolerance_mono future le :=
    Number.add_mono future (by decide +kernel : Number.atMost 0 Number.timeTolerance) le
  zero_atMost_ofNumber positive := positive

/-! ## Exact time -/

/-- Time without rounding. A number stands for its exact value, and infinity for `2 ^ 1024`, which is
above all others. -/
instance : Clock ℚ where
  ofNumber := Number.toRat
  toNumber := Number.ofRat
  zero := 0
  add s t := s + t
  sub s t := s - t
  mul s t := s * t
  max s t := max s t
  tolerance := Number.timeTolerance.toRat
  less s t := decide (s < t)
  atMost s t := decide (s ≤ t)

instance : LawfulClock ℚ where
  zero_atMost_zero := by decide
  atMost_trans first second := by
    apply decide_eq_true
    exact (of_decide_eq_true first).trans (of_decide_eq_true second)
  less_of_atMost_of_less first second := by
    apply decide_eq_true
    exact (of_decide_eq_true first).trans_lt (of_decide_eq_true second)
  atMost_add {t _} _ forward := by
    apply decide_eq_true
    exact le_add_of_nonneg_right (of_decide_eq_true forward)
  add_tolerance_mono _ le := by
    apply decide_eq_true
    exact add_le_add_left (of_decide_eq_true le) _
  zero_atMost_ofNumber positive := by
    apply decide_eq_true
    exact Number.toRat_nonneg positive

namespace Clock

theorem ofNumber_eq (x : Number) : (ofNumber x : ℚ) = x.toRat := rfl

/-- On the exact clock, a time has come up to a limit if no more than the tolerance is missing. -/
theorem reaches_iff {t limit : ℚ} : reaches t limit = true ↔ limit ≤ t + tolerance :=
  decide_eq_true_iff

/-- On the exact clock, a time is before a limit if more than the tolerance is missing. -/
theorem isBefore_iff {t limit : ℚ} : isBefore t limit = true ↔ t + tolerance < limit :=
  decide_eq_true_iff

theorem tolerance_pos : 0 < (tolerance : ℚ) :=
  Number.toRat_pos (by decide +kernel)

variable {T : Type} [Clock T] [LawfulClock T]

/-- A limit that a time is not before is not ahead of later times either. -/
theorem isBefore_of_later {s t limit : T} (future : atMost zero s) (later : atMost s t)
    (open_ : isBefore s limit = false) : isBefore t limit = false := by
  apply Bool.eq_false_iff.2
  intro before
  have earlier := LawfulClock.less_of_atMost_of_less
    (LawfulClock.add_tolerance_mono future later) before
  rw [isBefore, earlier] at open_
  exact absurd open_ (by decide)

end Clock

end BehaviorTree
