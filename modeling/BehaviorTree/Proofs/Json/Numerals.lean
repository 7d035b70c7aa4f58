import BehaviorTree.Json.Reader
import BehaviorTree.Json.Writer
import BehaviorTree.Proofs.Number.Shortest

/-!
# Numerals that are read

What is written for a finite number or an integer is one numeral: the reader takes all of it and
nothing of what follows (`isNumeral_render`, `isNumeral_integerText`). It takes the very digits and
the exponent that were written, which are those of a decimal nearest to the number
(`writes_magnitudeText`). Whether they are read as the number itself is another question, since
numerals are read quickly and not always exactly.
-/

namespace BehaviorTree

open Json

/-! ## Digits -/

namespace Json

/-- A nonempty run of decimal digits. -/
structure Digits (ds : List Char) : Prop where
  some : ds ≠ []
  all : ∀ c ∈ ds, isDigit c = true

/-- A whole part: digits of which zero leads only itself. -/
structure Whole (ds : List Char) : Prop extends Digits ds where
  leads : ds.head? = Option.some '0' → ds = ['0']

/-- What a numeral may have after its whole part: a point with digits, if anything. -/
inductive FractionPart : List Char → List Char → Prop
  | none : FractionPart [] []
  | point {ds : List Char} (digits : Digits ds) : FractionPart ds ('.' :: ds)

/-- What a numeral may end with: an exponent with a sign, if anything. -/
inductive ExponentPart : Option Int → List Char → Prop
  | none : ExponentPart none []
  | plus {ds : List Char} (digits : Digits ds) :
    ExponentPart (some (digitsValue ds)) ('e' :: '+' :: ds)
  | minus {ds : List Char} (digits : Digits ds) :
    ExponentPart (some (-(digitsValue ds : Int))) ('e' :: '-' :: ds)

/-- Characters that are a whole part, a fraction and an exponent. -/
def Spells (cs whole after : List Char) (e : Option Int) : Prop :=
  Whole whole ∧ ∃ fraction exponent, FractionPart after fraction ∧ ExponentPart e exponent ∧
    cs = whole ++ (fraction ++ exponent)

/-- What may follow a numeral without being taken for a part of it. -/
def EndsNumeral (rest : List Char) : Prop :=
  ∀ c ∈ rest.head?, isDigit c = false ∧ c ≠ '.' ∧ c ≠ 'e' ∧ c ≠ 'E'

/-- Characters that begin as a number does and are read as one numeral, whatever follows. -/
structure IsNumeral (cs : List Char) : Prop where
  starts : ∃ c rest, cs = c :: rest ∧ (c = '-' ∨ isDigit c = true)
  reads : ∃ j, ∀ rest, EndsNumeral rest → readNumber (cs ++ rest) = some (j, rest)

variable {ds rest cs whole after fraction exponent : List Char} {e : Option Int}

theorem readDigits_append (digits : Digits ds) (ends : ∀ c ∈ rest.head?, isDigit c = false) :
    readDigits (ds ++ rest) = some (ds, rest) := by
  have stops : rest.takeWhile isDigit = [] ∧ rest.dropWhile isDigit = rest := by
    cases rest with
    | nil => exact ⟨rfl, rfl⟩
    | cons c rest => simp [ends c rfl]
  rw [readDigits, List.takeWhile_append_of_pos digits.all, List.dropWhile_append_of_pos digits.all,
    stops.1, stops.2, List.append_nil]
  cases ds with
  | nil => exact absurd rfl digits.some
  | cons c ds => rfl

theorem readWhole_append (digits : Whole ds) (ends : ∀ c ∈ rest.head?, isDigit c = false) :
    readWhole (ds ++ rest) = some (ds, rest) := by
  rw [readWhole, readDigits_append digits.toDigits ends]
  split
  · next d ds' rest' eq =>
    cases eq
    cases digits.leads rfl
  · rfl

theorem EndsNumeral.after_exponent (ends : EndsNumeral rest) (part : ExponentPart e exponent) :
    ∀ c ∈ (exponent ++ rest).head?, isDigit c = false ∧ c ≠ '.' := by
  cases part with
  | none => exact fun c first => ⟨(ends c first).1, (ends c first).2.1⟩
  | plus | minus => rintro _ ⟨⟩; decide

theorem EndsNumeral.after_fraction (ends : EndsNumeral rest) (part : ExponentPart e exponent)
    (before : FractionPart after fraction) :
    ∀ c ∈ (fraction ++ (exponent ++ rest)).head?, isDigit c = false := by
  cases before with
  | none => exact fun c first => (ends.after_exponent part c first).1
  | point => rintro _ ⟨⟩; decide

theorem readFraction_append (part : FractionPart after fraction)
    (ends : ∀ c ∈ rest.head?, isDigit c = false ∧ c ≠ '.') :
    readFraction (fraction ++ rest) = some (after, rest) := by
  cases part with
  | none =>
    rw [List.nil_append]
    unfold readFraction
    split
    · exact absurd rfl (ends _ rfl).2
    · rfl
  | point digits => exact readDigits_append digits fun c first => (ends c first).1

theorem readExponent_append (part : ExponentPart e exponent) (ends : EndsNumeral rest) :
    readExponent (exponent ++ rest) = some (e, rest) := by
  cases part with
  | none =>
    rw [List.nil_append]
    unfold readExponent
    split
    · exact absurd rfl (ends _ rfl).2.2.1
    · exact absurd rfl (ends _ rfl).2.2.2
    · rfl
  | plus digits | minus digits =>
    have taken := readDigits_append digits fun c first => (ends c first).1
    simp [readExponent, readSignedDigits, taken]

/-- What is spelled by its parts, with a minus before it or not, is read as what they denote. -/
theorem readNumber_append (spells : Spells cs whole after e) (negative : Bool)
    (ends : EndsNumeral rest) : readNumber ((if negative then ['-'] else []) ++ cs ++ rest) =
      some (ofNumeral negative whole after e, rest) := by
  obtain ⟨digits, fraction, exponent, point, scale, rfl⟩ := spells
  have magnitude : readMagnitude negative (whole ++ (fraction ++ exponent) ++ rest) =
      some (ofNumeral negative whole after e, rest) := by
    simp only [List.append_assoc, readMagnitude, bind, Option.bind, pure,
      readWhole_append digits (ends.after_fraction scale point),
      readFraction_append point (ends.after_exponent scale), readExponent_append scale ends]
  cases negative with
  | true => exact magnitude
  | false =>
    obtain ⟨c, cs, rfl⟩ := List.exists_cons_of_ne_nil digits.some
    have signless : c ≠ '-' := by
      rintro rfl
      cases digits.all _ List.mem_cons_self
    simpa [readNumber, signless] using magnitude

theorem isNumeral_of_spells (spells : Spells cs whole after e) (negative : Bool) :
    IsNumeral ((if negative then ['-'] else []) ++ cs) := by
  refine ⟨?_, _, fun rest ends => readNumber_append spells negative ends⟩
  obtain ⟨digits, fraction, exponent, -, -, rfl⟩ := spells
  obtain ⟨c, cs, rfl⟩ := List.exists_cons_of_ne_nil digits.some
  cases negative with
  | true => exact ⟨'-', _, rfl, .inl rfl⟩
  | false => exact ⟨c, _, rfl, .inr (digits.all c List.mem_cons_self)⟩

/-! ## The digits of natural numbers -/

theorem digits_decimalDigits (n : Nat) : Digits (decimalDigits n) where
  some := List.ne_nil_of_length_pos Nat.length_toDigits_pos
  all _ member := Nat.isDigit_of_mem_toDigits (by decide) (by decide) member

theorem head?_decimalDigits {n : Nat} (positive : 0 < n) :
    (decimalDigits n).head? ≠ some '0' := by
  induction n using Nat.strong_induction_on with
  | _ n ih =>
    rcases Nat.lt_or_ge n 10 with single | more
    · have nonzero : ∀ n < 10, 0 < n → some n.digitChar ≠ some '0' := by decide
      rw [decimalDigits, Nat.toDigits_of_lt_base single]
      exact nonzero n single positive
    · have shorter : (decimalDigits (n / 10)).head? ≠ some '0' :=
        ih (n / 10) (by omega) (by omega)
      have split : decimalDigits n = decimalDigits (n / 10) ++ [(n % 10).digitChar] :=
        Nat.toDigits_of_base_le (by decide) more
      obtain ⟨c, cs, eq⟩ := List.exists_cons_of_ne_nil (digits_decimalDigits (n / 10)).some
      rw [eq] at split shorter
      rw [split]
      exact shorter

theorem whole_decimalDigits (n : Nat) : Whole (decimalDigits n) where
  toDigits := digits_decimalDigits n
  leads zero := by
    rcases Nat.eq_zero_or_pos n with rfl | positive
    · rfl
    · exact absurd zero (head?_decimalDigits positive)

theorem digitsValue_decimalDigits (n : Nat) : digitsValue (decimalDigits n) = n :=
  Nat.ofDigitChars_toDigits (by decide) (by decide)

theorem isNumeral_integerText (n : Int) : IsNumeral (integerText n) := by
  have spells : Spells (decimalDigits n.natAbs) (decimalDigits n.natAbs) [] none :=
    ⟨whole_decimalDigits _, [], [], .none, .none, by simp⟩
  have numeral := isNumeral_of_spells spells (n < 0)
  by_cases negative : n < 0 <;> simpa [integerText, negative] using numeral

/-! ## What is written for a number -/

theorem digits_append {ds' : List Char} (digits : Digits ds)
    (others : ∀ c ∈ ds', isDigit c = true) : Digits (ds ++ ds') where
  some := List.append_ne_nil_of_left_ne_nil digits.some _
  all c member := (List.mem_append.1 member).elim (digits.all c) (others c)

theorem all_zeros (count : Nat) : ∀ c ∈ List.replicate count '0', isDigit c = true :=
  fun _ member => List.eq_of_mem_replicate member ▸ rfl

theorem digitsValue_append (ds ds' : List Char) :
    digitsValue (ds ++ ds') = Nat.ofDigitChars 10 ds' (digitsValue ds) :=
  Nat.ofDigitChars_append 0

/-- The parts of a numeral that writes a decimal: there is a fraction or an exponent, and the digits
are those of the decimal with a few zeros after them. -/
structure Writes (d : Decimal) (whole after : List Char) (e : Option Int) (zeros : Nat) :
    Prop where
  marked : after ≠ [] ∨ e ≠ none
  short : zeros ≤ (d.exponent + 1).toNat
  digits : digitsValue (whole ++ after) = d.significand * 10 ^ zeros
  exponent : e.getD 0 - after.length = d.exponent - zeros

/-- Digits are written in place with no more zeros than lead up to the point and one after it. -/
theorem writes_positionalText (digits : Digits ds) (leads : ds.head? ≠ some '0') (point : Int) :
    ∃ whole after e zeros,
      Spells (Number.positionalText Number.jsonLayout ds point) whole after e ∧
        Writes ⟨digitsValue ds, point - ds.length⟩ whole after e zeros := by
  have zero : Whole ['0'] := ⟨⟨by simp, by simp [isDigit]⟩, fun _ => rfl⟩
  unfold Number.positionalText
  split
  · next low =>
    have fraction : Digits (List.replicate (-point).toNat '0' ++ ds) :=
      ⟨by simp [digits.some], fun c member =>
        (List.mem_append.1 member).elim (all_zeros _ c) (digits.all c)⟩
    refine ⟨['0'], _, none, 0, ⟨zero, _, [], .point fraction, .none, by simp⟩,
      .inl fraction.some, Nat.zero_le _, ?_, ?_⟩
    · rw [digitsValue_append, Nat.ofDigitChars_append, Nat.ofDigitChars_replicate_zero,
        Nat.pow_zero, Nat.mul_one]
      rfl
    · simp
      omega
  · next positive =>
    obtain ⟨c, cs, rfl⟩ := List.exists_cons_of_ne_nil digits.some
    obtain ⟨k, eq⟩ : ∃ k, point.toNat = k + 1 := ⟨point.toNat - 1, by omega⟩
    have whole : Digits ((c :: cs).take point.toNat) :=
      ⟨by simp [eq], fun d member => digits.all d (List.mem_of_mem_take member)⟩
    have led (padding : List Char) : ((c :: cs).take point.toNat ++ padding).head? ≠ some '0' := by
      simpa [eq] using leads
    extract_lets before after padding
    split
    · next bare =>
      have short : (c :: cs).length ≤ point.toNat := by simpa [after] using bare
      refine ⟨before ++ padding, ['0'], none, padding.length + 1,
        ⟨⟨digits_append whole (all_zeros _), fun zero => absurd zero (led padding)⟩, _, [],
          .point zero.toDigits, .none, by simp [Number.jsonLayout]⟩,
        .inl (by simp), ?_, ?_, ?_⟩
      · simp [padding] at short ⊢
        omega
      · have all : before = c :: cs := List.take_of_length_le short
        have last (n : Nat) : Nat.ofDigitChars 10 ['0'] n = 10 * n := by
          simp [Nat.ofDigitChars_cons]
        rw [digitsValue_append, digitsValue_append, all, Nat.ofDigitChars_replicate_zero, last,
          List.length_replicate, Nat.pow_succ']
        ring
      · simp [padding] at short ⊢
        omega
    · next some =>
      have fraction : Digits after := ⟨by simpa using some, fun d member =>
        digits.all d (List.mem_of_mem_drop member)⟩
      refine ⟨before, after, none, 0,
        ⟨⟨whole, fun zero => absurd zero (by simpa using led [])⟩, _, [], .point fraction, .none,
          by simp⟩, .inl fraction.some, Nat.zero_le _, ?_, ?_⟩
      · rw [List.take_append_drop, Nat.pow_zero, Nat.mul_one]
      · have long := List.length_pos_of_ne_nil fraction.some
        simp only [after, List.length_drop, Option.getD_none] at long ⊢
        omega

theorem exponentPart (e : Int) :
    ExponentPart (some e) ('e' :: (if e < 0 then '-' else '+') :: decimalDigits e.natAbs) := by
  have value := digitsValue_decimalDigits e.natAbs
  split
  · next low =>
    have part := ExponentPart.minus (digits_decimalDigits e.natAbs)
    rwa [value, show -(e.natAbs : Int) = e by omega] at part
  · next high =>
    have part := ExponentPart.plus (digits_decimalDigits e.natAbs)
    rwa [value, show (e.natAbs : Int) = e by omega] at part

theorem writes_scientificText (digits : Digits ds) (point : Int) :
    ∃ whole after e zeros, Spells (Number.scientificText ds point) whole after e ∧
      Writes ⟨digitsValue ds, point - ds.length⟩ whole after e zeros := by
  have exponent := exponentPart (point - 1)
  match ds with
  | [] => exact absurd rfl digits.some
  | [d] =>
    exact ⟨[d], [], _, 0,
      ⟨⟨digits, fun zero => by simpa using zero⟩, [], _, .none, exponent, rfl⟩, .inr (by simp),
      Nat.zero_le _, by simp, by simp⟩
  | d :: e :: rest =>
    have first : Digits [d] := ⟨by simp, by simpa using digits.all d List.mem_cons_self⟩
    have others : Digits (e :: rest) :=
      ⟨by simp, fun c member => digits.all c (List.mem_cons_of_mem _ member)⟩
    refine ⟨[d], e :: rest, _, 0,
      ⟨⟨first, fun zero => by simpa using zero⟩, _, _, .point others, exponent, rfl⟩,
      .inr (by simp), Nat.zero_le _, by simp, ?_⟩
    simp
    omega

end Json

/-- The decimal that is written for a finite number. -/
def Number.jsonDecimal (x : Number) : Decimal :=
  if x.isZero then ⟨0, -1⟩ else x.shortest jsonLayout.tie

theorem Number.nearest_jsonDecimal {x : Number} (finite : x.isFinite = true) :
    x.jsonDecimal.nearest = x.magnitude := by
  unfold jsonDecimal
  split
  · next zero => rw [eq_of_beq zero]; rfl
  · next nonzero => exact nearest_shortest _ finite (Bool.eq_false_iff.2 nonzero)

namespace Json

/-- What is written for a finite number without its sign is a numeral of its decimal. -/
theorem writes_magnitudeText {x : Number} (finite : x.isFinite = true) :
    ∃ whole after e zeros, Spells (x.magnitudeText Number.jsonLayout) whole after e ∧
      Writes x.jsonDecimal whole after e zeros := by
  unfold Number.magnitudeText Number.jsonDecimal
  split
  · have zero : Digits ['0'] := ⟨by simp, by simp [isDigit]⟩
    exact ⟨['0'], ['0'], none, 0, ⟨⟨zero, fun _ => rfl⟩, _, [], .point zero, .none, rfl⟩,
      .inl (by simp), Nat.zero_le _, rfl, rfl⟩
  · next nonzero =>
    have positive := Number.significand_shortest_pos Number.jsonLayout.tie finite
      (Bool.eq_false_iff.2 nonzero)
    extract_lets d digits point
    have same : (⟨digitsValue digits, point - digits.length⟩ : Decimal) =
        x.shortest Number.jsonLayout.tie := by
      rw [digitsValue_decimalDigits, add_sub_cancel_left]
    rw [← same]
    split
    · exact writes_positionalText (digits_decimalDigits _) (head?_decimalDigits positive) point
    · exact writes_scientificText (digits_decimalDigits _) point

theorem render_of_finite {x : Number} (finite : x.isFinite = true) :
    x.render Number.jsonLayout =
      (if x.isNegative then ['-'] else []) ++ x.magnitudeText Number.jsonLayout := by
  have number : x.isNaN = false := by
    have below : x.magnitude < Number.infinityBits := of_decide_eq_true finite
    exact decide_eq_false (Nat.not_lt_of_gt below)
  rw [Number.render, number, finite]
  rfl

/-- What is written for a finite number is a numeral. -/
theorem isNumeral_render {x : Number} (finite : x.isFinite = true) :
    IsNumeral (x.render Number.jsonLayout) := by
  obtain ⟨_, _, _, _, spells, -⟩ := writes_magnitudeText finite
  rw [render_of_finite finite]
  exact isNumeral_of_spells spells x.isNegative

end Json

end BehaviorTree
