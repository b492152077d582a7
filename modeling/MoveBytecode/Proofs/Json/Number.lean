import MoveBytecode.Json.Token
import MoveBytecode.Proofs.Digits

/-! Numbers are written so that they can be read: a whole number is read as itself, a double as the double that its
shortest decimal is taken for, which may be another one. -/

set_option autoImplicit false

namespace MoveBytecode

namespace Json

open Text Token

namespace NumberLiteral

structure WellFormed (literal : NumberLiteral) : Prop where
  whole_ne_nil : literal.whole ≠ []
  leading : literal.whole.head? = some '0' → literal.whole.length ≤ 1
  whole : ∀ c ∈ literal.whole, isDigit c = true
  fraction : ∀ c ∈ literal.fraction, isDigit c = true
  exponent : ∀ c ∈ literal.exponent, isDigit c = true
  sign : literal.exponent = [] → literal.exponentNegative = false

def fractionText (literal : NumberLiteral) : List Char :=
  if literal.fraction = [] then [] else '.' :: literal.fraction

def exponentText (literal : NumberLiteral) : List Char :=
  if literal.exponent = [] then [] else 'e' :: (if literal.exponentNegative then '-' else '+') :: literal.exponent

def text (literal : NumberLiteral) : List Char :=
  Number.signed literal.negative (literal.whole ++ literal.fractionText ++ literal.exponentText)

end NumberLiteral

def EndsNumber (rest : List Char) : Prop := ∀ c ∈ rest.head?, isDigit c = false ∧ c ≠ '.' ∧ c ≠ 'e' ∧ c ≠ 'E'

section
variable {literal : NumberLiteral} {rest : List Char}

theorem readDigits?_append {digits : List Char} (nonempty : digits ≠ []) (all : ∀ c ∈ digits, isDigit c = true)
    (ends : ∀ c ∈ rest.head?, isDigit c = false) : readDigits? (digits ++ rest) = some (digits, rest) := by
  have taken : (digits ++ rest).takeWhile isDigit = digits ∧ (digits ++ rest).dropWhile isDigit = rest := by
    rw [List.takeWhile_append_of_pos all, List.dropWhile_append_of_pos all]
    cases rest with
    | nil => simp
    | cons c rest => simp [ends c rfl]
  rw [readDigits?, taken.1, taken.2, if_neg (by simpa using nonempty)]

theorem readExponent?_append (formed : literal.WellFormed) (ends : EndsNumber rest) :
    readExponent? (literal.exponentText ++ rest) = some (literal.exponentNegative, literal.exponent, rest) := by
  by_cases absent : literal.exponent = []
  · rw [NumberLiteral.exponentText, if_pos absent, absent, formed.sign absent, List.nil_append]
    cases rest with
    | nil => rfl
    | cons c rest => simp [readExponent?, ends c rfl]
  · have digits := readDigits?_append absent formed.exponent fun c first => (ends c first).1
    rw [NumberLiteral.exponentText, if_neg absent]
    cases literal.exponentNegative <;> simp [readExponent?, digits]

theorem readFraction?_append (formed : literal.WellFormed)
    (ends : ∀ c ∈ rest.head?, isDigit c = false ∧ c ≠ '.') :
    readFraction? (literal.fractionText ++ rest) = some (literal.fraction, rest) := by
  by_cases absent : literal.fraction = []
  · rw [NumberLiteral.fractionText, if_pos absent, absent, List.nil_append, readFraction?]
    rintro _ rfl
    exact (ends _ rfl).2 rfl
  · rw [NumberLiteral.fractionText, if_neg absent]
    exact readDigits?_append absent formed.fraction fun c first => (ends c first).1

theorem readUnsigned?_append (formed : literal.WellFormed) (ends : EndsNumber rest) :
    readUnsigned? literal.negative (literal.whole ++ literal.fractionText ++ literal.exponentText ++ rest) =
      some (literal, rest) := by
  -- Neither of the two parts that may be missing starts with a digit, so the part before them ends in time.
  have behind : ∀ c ∈ (literal.exponentText ++ rest).head?, isDigit c = false ∧ c ≠ '.' := by
    unfold NumberLiteral.exponentText
    split
    · exact fun c first => ⟨(ends c first).1, (ends c first).2.1⟩
    · rintro _ ⟨⟩
      decide
  have behind' : ∀ c ∈ (literal.fractionText ++ (literal.exponentText ++ rest)).head?, isDigit c = false := by
    unfold NumberLiteral.fractionText
    split
    · exact fun c first => (behind c first).1
    · rintro _ ⟨⟩
      decide
  have lone : ¬(literal.whole.head? = some '0' ∧ literal.whole.length > 1) := by
    rintro ⟨zero, long⟩
    exact absurd (formed.leading zero) (by omega)
  rw [readUnsigned?, List.append_assoc, List.append_assoc,
    readDigits?_append formed.whole_ne_nil formed.whole behind']
  simp only [Option.bind_eq_bind, Option.bind_some, if_neg lone, readFraction?_append formed behind,
    readExponent?_append formed ends]
  rfl

theorem readNumber?_append (formed : literal.WellFormed) (ends : EndsNumber rest) :
    readNumber? (literal.text ++ rest) = some (literal, rest) := by
  have read := readUnsigned?_append formed ends
  rw [NumberLiteral.text]
  cases sign : literal.negative with
  | true =>
    rw [sign] at read
    exact read
  | false =>
    rw [sign] at read
    rw [Number.signed, if_neg (by decide), readNumber?, read]
    intro _ starts
    obtain ⟨first, more, whole⟩ := List.exists_cons_of_ne_nil formed.whole_ne_nil
    have digit := formed.whole first (whole ▸ List.mem_cons_self)
    rw [whole] at starts
    cases starts
    exact absurd digit (by decide)

end

namespace Number

/-- The numbers that a text can be read as: a whole one has 64 bits, with or without a sign. -/
def Fits : Number → Prop
  | integer value => -Nat.pow 2 63 ≤ value ∧ value < Nat.pow 2 64
  | double _ _ => True

def laidOut (negative : Bool) (digits : List Char) (leading : Int) : NumberLiteral :=
  if 0 ≤ leading ∧ leading < 16 then
    let whole := leading.toNat + 1
    if digits.length ≤ whole then ⟨negative, digits ++ List.replicate (whole - digits.length) '0', ['0'], false, []⟩
    else ⟨negative, digits.take whole, digits.drop whole, false, []⟩
  else if -5 ≤ leading ∧ leading < 0 then
    ⟨negative, ['0'], List.replicate ((-leading).toNat - 1) '0' ++ digits, false, []⟩
  else ⟨negative, digits.take 1, digits.drop 1, leading < 0, Text.decimal leading.natAbs⟩

def literal : Number → NumberLiteral
  | integer value => ⟨value < 0, Text.decimal value.natAbs, [], false, []⟩
  | double negative magnitude =>
    if magnitude.significand = 0 then ⟨negative, ['0'], ['0'], false, []⟩
    else
      let decimal := magnitude.shortest
      let digits := Text.decimal decimal.digits
      laidOut negative (withoutTrailingZeros digits) (decimal.exponent + digits.length - 1)

/-- The number that the text of a number is read as. -/
def reread? (number : Number) : Option Number := number.literal.number?

/-- Digits that can be laid out: no zero leads them, and only those of zero are none. -/
structure Significant (digits : List Char) (leading : Int) : Prop where
  all : ∀ c ∈ digits, isDigit c = true
  head : digits.head? ≠ some '0'
  some : digits ≠ [] ∨ leading = 0

section
variable {digits : List Char} {leading : Int}

theorem text_laidOut (significant : Significant digits leading) (negative : Bool) :
    (laidOut negative digits leading).text = signed negative (layOut digits leading) := by
  unfold laidOut layOut
  -- Positional notation and the one with an exponent put the point in different places.
  split
  · dsimp only
    split
    · simp [NumberLiteral.text, NumberLiteral.fractionText, NumberLiteral.exponentText]
    · next short =>
      have more : digits.drop (leading.toNat + 1) ≠ [] := by
        rw [ne_eq, List.drop_eq_nil_iff]
        omega
      simp only [NumberLiteral.text, NumberLiteral.fractionText, NumberLiteral.exponentText, if_neg more, if_pos,
        List.append_nil]
  · next outside =>
    have nonempty : digits ≠ [] := by
      refine significant.some.resolve_right fun zero => outside ?_
      omega
    split
    · simp [NumberLiteral.text, NumberLiteral.fractionText, NumberLiteral.exponentText, nonempty]
    · match digits, nonempty with
      | [first], _ =>
        simp [NumberLiteral.text, NumberLiteral.fractionText, NumberLiteral.exponentText, decimal_ne_nil]
      | first :: second :: rest, _ =>
        simp [NumberLiteral.text, NumberLiteral.fractionText, NumberLiteral.exponentText, decimal_ne_nil]

theorem wellFormed_laidOut (significant : Significant digits leading) (negative : Bool) :
    (laidOut negative digits leading).WellFormed := by
  have zeros (count : Nat) : ∀ c ∈ List.replicate count '0', isDigit c = true := by
    intro c member
    rw [List.eq_of_mem_replicate member]
    decide
  -- A whole part starts as the digits do, so it has no zero in front, or is one zero by itself.
  have head {part : List Char} (front : part.head? = digits.head?) : part.head? ≠ some '0' := front ▸ significant.head
  unfold laidOut
  split
  · dsimp only
    split
    · refine ⟨?_, ?_, List.forall_mem_append.mpr ⟨significant.all, zeros _⟩, zeros 1, nofun, fun _ => rfl⟩
      · exact List.ne_nil_of_length_pos (by simp only [List.length_append, List.length_replicate]; omega)
      · intro zero
        rcases significant.some with nonempty | rfl
        · exact absurd zero (head (List.head?_append_of_ne_nil _ nonempty))
        · cases digits with
          | nil => simp
          | cons first rest => exact absurd zero significant.head
    · next short =>
      refine ⟨?_, fun zero => absurd zero (head ?_), fun c member => significant.all c (List.mem_of_mem_take member),
        fun c member => significant.all c (List.mem_of_mem_drop member), nofun, fun _ => rfl⟩
      · exact List.ne_nil_of_length_pos (by rw [List.length_take]; omega)
      · rw [List.head?_take, if_neg (Nat.succ_ne_zero _)]
  · next outside =>
    have nonempty : digits ≠ [] := by
      refine significant.some.resolve_right fun zero => outside ?_
      omega
    split
    · exact ⟨nofun, fun _ => le_rfl, zeros 1, List.forall_mem_append.mpr ⟨zeros _, significant.all⟩, nofun,
        fun _ => rfl⟩
    · refine ⟨?_, fun _ => List.length_take_le .., fun c member => significant.all c (List.mem_of_mem_take member),
        fun c member => significant.all c (List.mem_of_mem_drop member), fun c => isDigit_of_mem_decimal,
        fun absent => absurd absent (decimal_ne_nil _)⟩
      simpa using nonempty

end

theorem significant_decimal {n : Nat} (positive : 0 < n) (leading : Int) :
    Significant (withoutTrailingZeros (Text.decimal n)) leading := by
  have front : withoutTrailingZeros (Text.decimal n) <+: Text.decimal n := List.rdropWhile_prefix _ _
  have nonempty : withoutTrailingZeros (Text.decimal n) ≠ [] := by
    intro empty
    obtain ⟨first, rest, split⟩ := List.exists_cons_of_ne_nil (decimal_ne_nil n)
    have zero := List.rdropWhile_eq_nil_iff.mp empty first (split ▸ List.mem_cons_self)
    refine head?_decimal positive ?_
    rw [split, List.head?_cons, of_decide_eq_true zero]
  refine ⟨fun c member => isDigit_of_mem_decimal (front.mem member), ?_, .inl nonempty⟩
  obtain ⟨rest, split⟩ := front
  rw [← List.head?_append_of_ne_nil _ nonempty, split]
  exact head?_decimal positive

end Number

end Json

namespace Binary64

variable {x : Binary64} {exponent : Int} {decimal : Decimal}

theorem pos_of_rounds (nonzero : x.significand ≠ 0) {times count step : Nat} (positive : 0 < times)
    (rounds : x.rounds times (count * step) = true) : 0 < count := by
  refine Nat.pos_of_ne_zero fun none => ?_
  -- The lower end of the interval is at most half a unit below the double, which is a unit at least.
  have unit : 0 < Nat.pow 2 x.scale := Nat.pow_pos (by decide)
  have least : Nat.pow 2 x.scale ≤ x.significand * Nat.pow 2 x.scale :=
    Nat.le_mul_of_pos_left _ (Nat.pos_of_ne_zero nonzero)
  have room (width : Nat) (narrow : width ≤ 2) : 0 < (x.quarters - width * Nat.pow 2 x.scale) * times := by
    refine Nat.mul_pos (Nat.sub_pos_of_lt ?_) positive
    calc width * Nat.pow 2 x.scale ≤ 2 * Nat.pow 2 x.scale := Nat.mul_le_mul_right _ narrow
      _ < 4 * (x.significand * Nat.pow 2 x.scale) := by omega
      _ = x.quarters := by rw [quarters, Nat.mul_assoc]
  rw [none, Nat.zero_mul] at rounds
  unfold Binary64.rounds at rounds
  extract_lets below low high at rounds
  have above : 0 < low := room _ (by split <;> decide)
  split at rounds
  · exact absurd (of_decide_eq_true (Bool.and_elim_left rounds)) (Nat.not_le.mpr above)
  · exact Nat.not_lt_zero _ (of_decide_eq_true (Bool.and_elim_left rounds))

theorem digits_of_onGrid? (nonzero : x.significand ≠ 0) (found : x.onGrid? exponent = some decimal) :
    0 < decimal.digits := by
  have times : 0 < Nat.pow 10 (-exponent).toNat := Nat.pow_pos (by decide)
  unfold onGrid? at found
  extract_lets _ step value floor twice nearer farther at found
  split at found
  · next rounds =>
    cases found
    exact pos_of_rounds nonzero times rounds
  · split at found
    · next rounds =>
      cases found
      exact pos_of_rounds nonzero times rounds
    · cases found

theorem shortest_cases (nonzero : x.significand ≠ 0) : 0 < x.shortest.digits ∨ x.shortest = ⟨0, 0⟩ := by
  rw [shortest]
  cases found : (List.range 17).findSome? fun more : Nat => x.onGrid? (x.leadingExponent - more) with
  | none => exact .inr rfl
  | some decimal =>
    obtain ⟨_, _, there⟩ := List.exists_of_findSome?_eq_some found
    exact .inl (digits_of_onGrid? nonzero there)

end Binary64

namespace Json

open Text Token

namespace Number

theorem significant_shortest {magnitude : Binary64} (nonzero : magnitude.significand ≠ 0) :
    Significant (withoutTrailingZeros (Text.decimal magnitude.shortest.digits))
      (magnitude.shortest.exponent + (Text.decimal magnitude.shortest.digits).length - 1) := by
  rcases Binary64.shortest_cases nonzero with positive | zero
  · exact significant_decimal positive _
  · rw [zero]
    exact ⟨nofun, nofun, .inr rfl⟩

theorem text_literal (number : Number) : number.literal.text = number.text := by
  cases number with
  | integer value =>
    simp [literal, Number.text, NumberLiteral.text, NumberLiteral.fractionText, NumberLiteral.exponentText]
  | double negative magnitude =>
    by_cases zero : magnitude.significand = 0
    · simp only [literal, Number.text, if_pos zero]
      rfl
    · simp only [literal, Number.text, if_neg zero]
      exact text_laidOut (significant_shortest zero) negative

theorem wellFormed_literal (number : Number) : number.literal.WellFormed := by
  cases number with
  | integer value =>
    refine ⟨decimal_ne_nil _, fun zero => ?_, fun c => isDigit_of_mem_decimal, nofun, nofun, fun _ => rfl⟩
    rcases Nat.eq_zero_or_pos value.natAbs with none | positive
    · rw [literal, none]
      exact le_rfl
    · exact absurd zero (head?_decimal positive)
  | double negative magnitude =>
    by_cases zero : magnitude.significand = 0
    · simp only [literal, if_pos zero]
      exact ⟨nofun, fun _ => le_rfl, by simp [isDigit], by simp [isDigit], nofun, fun _ => rfl⟩
    · simp only [literal, if_neg zero]
      exact wellFormed_laidOut (significant_shortest zero) negative

theorem text_starts (number : Number) :
    ∃ c rest, number.text = c :: rest ∧ (c = '-' ∨ isDigit c = true) := by
  have formed := number.wellFormed_literal
  obtain ⟨first, more, whole⟩ := List.exists_cons_of_ne_nil formed.whole_ne_nil
  rw [← text_literal, NumberLiteral.text, whole]
  cases number.literal.negative with
  | true => exact ⟨'-', _, rfl, .inl rfl⟩
  | false => exact ⟨first, _, rfl, .inr (formed.whole first (whole ▸ List.mem_cons_self))⟩

theorem readNumber?_text (number : Number) {rest : List Char} (ends : EndsNumber rest) :
    readNumber? (number.text ++ rest) = some (number.literal, rest) := by
  rw [← text_literal]
  exact readNumber?_append number.wellFormed_literal ends

theorem reread?_integer {value : Int} (fits : (integer value).Fits) : (integer value).reread? = some (integer value) := by
  obtain ⟨low, high⟩ := fits
  have written : Nat.ofDigitChars 10 (Text.decimal value.natAbs) 0 = value.natAbs := Nat.ofDigitChars_ten_toDigits
  simp only [reread?, literal, NumberLiteral.number?, NumberLiteral.isWhole, List.isEmpty_nil, Bool.and_self, written,
    Bool.true_and]
  by_cases below : value < 0
  · have positive : 0 < value.natAbs := by omega
    have bounded : value.natAbs ≤ Nat.pow 2 63 := by omega
    have same : -(value.natAbs : Int) = value := by omega
    rw [if_neg (by simp [below]), if_pos (by simp [below, positive, bounded]), same]
  · have bounded : value.natAbs < Nat.pow 2 64 := by omega
    have same : (value.natAbs : Int) = value := by omega
    rw [if_pos (by simp [below, bounded]), same]

theorem fits_of_number? {literal : NumberLiteral} {number : Number} (read : literal.number? = some number) :
    number.Fits := by
  unfold NumberLiteral.number? at read
  extract_lets whole at read
  split at read
  · next small =>
    cases read
    simp only [Bool.and_eq_true, decide_eq_true_eq] at small
    exact ⟨by omega, by omega⟩
  · split at read
    · next small =>
      cases read
      simp only [Bool.and_eq_true, decide_eq_true_eq] at small
      exact ⟨by omega, by omega⟩
    · obtain ⟨_, _, rfl⟩ := Option.map_eq_some_iff.mp read
      trivial

end Number

end Json

end MoveBytecode
