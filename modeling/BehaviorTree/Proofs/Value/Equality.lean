import BehaviorTree.Proofs.Number.Exact
import BehaviorTree.Proofs.Value.Json

/-!
# Values compared with themselves

A value without NaN in it has the value that it has (`valueEq_self`). The comparison of conditions
takes the difference of two numbers, and that of an infinite number and itself is NaN: so it finds
every value equal to itself but those that are infinite numbers (`looselyEq_self`). An infinite
number inside an array or an object does no harm, since there numbers are compared as they are.
-/

namespace BehaviorTree

namespace Number

variable {x : Number}

/-- Greater or less than all finite numbers. -/
def isInfinite (x : Number) : Bool := x.magnitude == infinityBits

theorem magnitude_lt (x : Number) : x.magnitude < signBit := Nat.mod_lt _ (by decide)

theorem isNegative_neg (x : Number) : x.neg.isNegative = !x.isNegative :=
  isNegative_ofParts _ x.magnitude_lt

theorem magnitude_neg (x : Number) : x.neg.magnitude = x.magnitude :=
  magnitude_ofParts _ x.magnitude_lt

theorem units_neg (x : Number) : x.neg.units = -x.units := by
  rw [units, units, isNegative_neg, magnitude_neg]
  cases x.isNegative <;> simp

theorem isFinite_of_not_isInfinite (real : x.isNaN = false) (bounded : x.isInfinite = false) :
    x.isFinite = true := by
  simp only [isNaN, isInfinite, isFinite, decide_eq_false_iff_not, beq_eq_false_iff_ne,
    decide_eq_true_eq] at *
  omega

/-- A number that is not NaN is equal to itself. -/
theorem valueEq_self (real : x.isNaN = false) : x.valueEq x = true := by
  simp [valueEq, real]

/-- The difference of a finite number and itself is zero. -/
theorem sub_self (finite : x.isFinite = true) (real : x.isNaN = false) :
    x - x = ofParts false 0 := by
  have same : x.sub x = ofUnits (x.units + x.neg.units) (x.isNegative && x.neg.isNegative) := by
    have finite' : x.neg.isFinite = true := by rwa [isFinite, magnitude_neg]
    simp only [sub, real, addOrdered, finite, finite', Bool.false_eq_true, if_false]
  refine same.trans ?_
  rw [units_neg, isNegative_neg, Int.add_right_neg, Bool.and_not_self]
  rfl

/-- The difference of an infinite number and itself is NaN. -/
theorem sub_self_of_isInfinite (infinite : x.isInfinite = true) : x - x = invalid := by
  have top : x.magnitude = infinityBits := beq_iff_eq.1 infinite
  have real : x.isNaN = false := by rw [isNaN, top]; rfl
  have beyond : x.isFinite = false := by rw [isFinite, top]; rfl
  have beyond' : x.neg.isFinite = false := by rwa [isFinite, magnitude_neg]
  have opposite : (x.isNegative == x.neg.isNegative) = false := by
    rw [isNegative_neg]
    cases x.isNegative <;> rfl
  show x.sub x = invalid
  simp only [sub, real, addOrdered, beyond, beyond', opposite, Bool.false_eq_true, if_false]

/-- The difference of a number and itself is small exactly if the number is not infinite. -/
theorem abs_sub_self (real : x.isNaN = false) :
    atMost (x - x).abs epsilon = !x.isInfinite := by
  cases infinite : x.isInfinite with
  | true =>
    rw [sub_self_of_isInfinite infinite]
    decide +kernel
  | false =>
    rw [sub_self (isFinite_of_not_isInfinite real infinite) real]
    decide +kernel

end Number

namespace Value

/-- An infinite number, by itself and not inside of another value. -/
def isInfinite : Value → Bool
  | .number x => x.isInfinite
  | _ => false

mutual

/-- A value without NaN in it is equal to itself. -/
theorem valueEq_self {v : Value} (real : ∀ x ∈ v.numbers, x.isNaN = false) :
    v.valueEq v = true := by
  match v with
  | .null => rfl
  | .bool _ | .string _ => exact beq_self_eq_true _
  | .number x => exact Number.valueEq_self (real x List.mem_cons_self)
  | .array items => exact alikeItems_self real
  | .object entries => exact alikeEntries_self real

theorem alikeItems_self {items : List Value}
    (real : ∀ x ∈ numbersOfItems items, x.isNaN = false) :
    alikeItems Number.valueEq items items = true := by
  match items with
  | [] => rfl
  | item :: items =>
    obtain ⟨first, others⟩ := List.forall_mem_append.1 real
    rw [alikeItems, Bool.and_eq_true]
    exact ⟨valueEq_self first, alikeItems_self others⟩

theorem alikeEntries_self {entries : List (String × Value)}
    (real : ∀ x ∈ numbersOfEntries entries, x.isNaN = false) :
    alikeEntries Number.valueEq entries entries = true := by
  match entries with
  | [] => rfl
  | (key, value) :: entries =>
    obtain ⟨first, others⟩ := List.forall_mem_append.1 real
    rw [alikeEntries, Bool.and_eq_true, Bool.and_eq_true]
    exact ⟨⟨beq_self_eq_true key, valueEq_self first⟩, alikeEntries_self others⟩

end

/-- A value without NaN in it is loosely equal to itself exactly if it is no infinite number. -/
theorem looselyEq_self {v : Value} (real : ∀ x ∈ v.numbers, x.isNaN = false) :
    v.looselyEq v = !v.isInfinite := by
  cases v with
  | number x => exact Number.abs_sub_self (real x List.mem_cons_self)
  | _ => exact valueEq_self real

end Value

end BehaviorTree
