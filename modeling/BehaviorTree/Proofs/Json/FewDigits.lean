import BehaviorTree.Proofs.Json.Legible

/-!
# Numerals of few digits

Numerals are read quickly, and one of many digits may be read as the number beside its own. Where
the digits make a natural number below `2 ^ 53` and the power of ten is at most the twenty-second,
both are numbers themselves and one rounding is all there is (`ofNumeral_eq`). So every number that
is written in at most fifteen digits, none of them too far behind the point, is read back
(`Number.FewDigits.readsBack`).
-/

namespace BehaviorTree

namespace Json

variable {cs whole after : List Char} {n : Nat}

theorem le_ofDigitChars (cs : List Char) (n : Nat) : n ≤ Nat.ofDigitChars 10 cs n := by
  induction cs generalizing n with
  | nil => exact Nat.le_refl n
  | cons c cs ih =>
    rw [Nat.ofDigitChars_cons]
    exact Nat.le_trans (by omega) (ih _)

/-- All digits are taken if their value fits. -/
theorem takeDigits_eq (fits : Nat.ofDigitChars 10 cs n < UInt64.size) :
    takeDigits n cs = (Nat.ofDigitChars 10 cs n, []) := by
  induction cs generalizing n with
  | nil => rfl
  | cons c cs ih =>
    have next : Nat.ofDigitChars 10 (c :: cs) n = Nat.ofDigitChars 10 cs (addDigit n c) :=
      Nat.ofDigitChars_cons
    rw [next] at fits ⊢
    rw [takeDigits, if_pos (Nat.lt_of_le_of_lt (le_ofDigitChars cs _) fits), ih fits]

/-- Digits that fit are all significant. -/
theorem significantPart_eq (fits : digitsValue (whole ++ after) < UInt64.size) (exponent : Int) :
    significantPart whole after exponent =
      ⟨digitsValue (whole ++ after), exponent - after.length⟩ := by
  have split := digitsValue_append whole after
  rw [split] at fits
  have before : takeDigits 0 whole = (digitsValue whole, []) :=
    takeDigits_eq (Nat.lt_of_le_of_lt (le_ofDigitChars after (digitsValue whole)) fits)
  simp [significantPart, before, takeDigits_eq fits, split]

/-- A numeral of few digits is read as the number nearest to its decimal. -/
theorem ofNumeral_eq {e : Option Int} (marked : after ≠ [] ∨ e ≠ none)
    (few : digitsValue (whole ++ after) < 2 ^ 53) (least : -22 ≤ e.getD 0 - after.length)
    (most : e.getD 0 - after.length ≤ 22) (negative : Bool) :
    ofNumeral negative whole after e = .number (.ofParts negative
      (Decimal.mk (digitsValue (whole ++ after)) (e.getD 0 - after.length)).nearest) := by
  have point : (after.isEmpty && e.isNone && decide (digitsValue whole < UInt64.size)) = false := by
    rcases marked with some | some <;> simp [some]
  let d : Decimal := ⟨digitsValue (whole ++ after), e.getD 0 - after.length⟩
  have bound : d.nearest < Number.signBit :=
    Nat.lt_of_le_of_lt (Number.roundMagnitude_le _ _) (by decide)
  have scaled : d.scaled = some (.ofParts false d.nearest) := Decimal.scaled_eq few least most
  rw [ofNumeral, point, significantPart_eq (Nat.lt_trans few (by decide)), scaled]
  cases negative with
  | false => rfl
  | true => simp [Number.neg_ofParts bound, d]

end Json

namespace Number

open Json

/-- The number is written in few digits: these stay below `2 ^ 53` with the zeros that are written
after them, and no more than 22 of them stand after the point. -/
structure FewDigits (x : Number) : Prop where
  finite : x.isFinite = true
  digits : x.jsonDecimal.significand * 10 ^ (x.jsonDecimal.exponent + 1).toNat < 2 ^ 53
  places : -22 ≤ x.jsonDecimal.exponent

namespace FewDigits

variable {x : Number}

theorem exponent_le (few : x.FewDigits) : x.jsonDecimal.exponent ≤ 22 := by
  cases zero : x.isZero with
  | true => simp [jsonDecimal, zero]
  | false =>
    have positive : 0 < x.jsonDecimal.significand := by
      simpa [jsonDecimal, zero] using significand_shortest_pos _ few.finite zero
    by_contra large
    have power : 10 ^ 16 ≤ 10 ^ (x.jsonDecimal.exponent + 1).toNat :=
      Nat.pow_le_pow_right (by decide) (by omega)
    have digits := Nat.lt_of_le_of_lt (Nat.mul_le_mul positive power) few.digits
    exact absurd digits (by decide)

/-- A number of few digits is read back. -/
theorem readsBack (few : x.FewDigits) : x.ReadsBack := by
  obtain ⟨whole, after, e, zeros, spells, marked, short, digits, exponent⟩ :=
    writes_magnitudeText few.finite
  have value : (Decimal.mk (digitsValue (whole ++ after)) (e.getD 0 - after.length)).value =
      x.jsonDecimal.value := by
    simp only [Decimal.value, digits, exponent, Nat.cast_mul, Nat.cast_pow, Nat.cast_ofNat]
    rw [mul_assoc, ← zpow_natCast, ← zpow_add₀ (by norm_num), add_sub_cancel]
  have below : digitsValue (whole ++ after) < 2 ^ 53 := by
    rw [digits]
    have more := Nat.mul_le_mul_left x.jsonDecimal.significand
      (Nat.pow_le_pow_right (show 0 < 10 by decide) short)
    exact Nat.lt_of_le_of_lt more few.digits
  have least := few.places
  have most := few.exponent_le
  have ends : EndsNumeral [] := by simp [EndsNumeral]
  have read := readNumber_append spells x.isNegative ends
  rw [ofNumeral_eq marked below (by omega) (by omega), Decimal.nearest_congr value,
    nearest_jsonDecimal few.finite, ofParts_self, ← render_of_finite few.finite,
    List.append_nil] at read
  have text : Json.read (x.render jsonLayout) = some (shown 0 (.number x)) :=
    read_pretty (.number x)
  rw [ReadsBack, text, Option.bind_some, shown, if_pos few.finite, numeral, read]
  rfl

end FewDigits

end Number

end BehaviorTree
