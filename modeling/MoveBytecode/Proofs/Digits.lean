import MoveBytecode.Proofs.Text

/-! The numbers that digits stand for. Zeros in front of them change nothing, and of all digits for a number the written
ones are those without. Two hex digits make a byte, so bytes that digits spell have the number of the digits. -/

set_option autoImplicit false

namespace MoveBytecode

namespace Text

/-- The value of a digit, those above nine in either case. -/
def digit (c : Char) : Nat := "0123456789abcdef".toList.idxOf c.toLower

def numeral (base : Nat) (digits : List Char) : Nat := Nat.ofDigits base (digits.map digit).reverse

/-- What holds of the first 128 characters holds of every character that is among them. -/
theorem of_ascii (holds : Char → Prop) (each : ∀ m : Fin 128, holds (Char.ofNat m)) {c : Char}
    (small : c.toNat < 128) : holds c := by
  have known := each ⟨c.toNat, small⟩
  rwa [Char.ofNat_toNat] at known

def IsDecimal (text : List Char) : Prop := text ≠ [] ∧ ∀ c ∈ text, '0' ≤ c ∧ c ≤ '9'

section
variable {base n : Nat} {c : Char} {text : List Char}

theorem numeral_cons (base : Nat) (c : Char) (rest : List Char) :
    numeral base (c :: rest) = base ^ rest.length * digit c + numeral base rest := by
  rw [numeral, List.map_cons, Nat.ofDigits_reverse_cons, List.length_map, Nat.add_comm, numeral]

theorem numeral_concat (base : Nat) (front : List Char) (c : Char) :
    numeral base (front ++ [c]) = base * numeral base front + digit c := by
  rw [numeral, List.map_append, List.map_singleton, List.reverse_concat, Nat.ofDigits_cons, numeral, Nat.add_comm]

theorem numeral_zeros (base count : Nat) (text : List Char) :
    numeral base (List.replicate count '0' ++ text) = numeral base text := by
  induction count with
  | zero => rfl
  | succ count ih =>
    have zero : digit '0' = 0 := by decide
    rw [List.replicate_succ, List.cons_append, numeral_cons, zero, ih, Nat.mul_zero, Nat.zero_add]

theorem isDigit_iff : isDigit c = true ↔ '0' ≤ c ∧ c ≤ '9' := by simp [isDigit]

theorem ascii_of_isDigit (shown : isDigit c = true) : c.toNat < 128 := by
  have bound : c.toNat ≤ '9'.toNat := (isDigit_iff.mp shown).2
  exact Nat.lt_of_le_of_lt bound (by decide)

theorem digit_of_isDigit (shown : isDigit c = true) :
    digit c = c.toNat - '0'.toNat ∧ digit c < 10 ∧ Nat.digitChar (digit c) = c := by
  have known := of_ascii (fun c => isDigit c = true →
    digit c = c.toNat - '0'.toNat ∧ digit c < 10 ∧ Nat.digitChar (digit c) = c) (by decide) (ascii_of_isDigit shown)
  exact known shown

theorem ofDigitChars_eq (digits : ∀ c ∈ text, isDigit c = true) (n : Nat) :
    Nat.ofDigitChars 10 text n = 10 ^ text.length * n + numeral 10 text := by
  induction text generalizing n with
  | nil => simp [numeral]
  | cons c rest ih =>
    obtain ⟨head, tail⟩ := List.forall_mem_cons.mp digits
    rw [Nat.ofDigitChars_cons, ih tail, numeral_cons, (digit_of_isDigit head).1, List.length_cons, Nat.pow_succ]
    ring

theorem readDecimal?_eq_some : readDecimal? text = some n ↔ IsDecimal text ∧ numeral 10 text = n := by
  have decimal : IsDecimal text ↔ text ≠ [] ∧ text.all isDigit = true := by
    simp only [IsDecimal, List.all_eq_true, isDigit_iff]
  rw [decimal, readDecimal?]
  split
  · next digits =>
    rw [ofDigitChars_eq (List.all_eq_true.mp digits.2), Nat.mul_zero, Nat.zero_add, Option.some_inj, and_iff_right digits]
  · next other => simp only [other, false_and, reduceCtorEq]

theorem head?_decimal (positive : 0 < n) : (decimal n).head? ≠ some '0' := by
  induction n using Nat.strongRecOn with
  | ind n ih =>
    rw [decimal]
    by_cases small : n < 10
    · rw [Nat.toDigits_of_lt_base small]
      interval_cases n <;> decide
    · have shorter := ih (n / 10) (by omega) (by omega)
      rw [Nat.toDigits_of_base_le (by decide) (by omega)]
      rwa [List.head?_append_of_ne_nil _ Nat.toDigits_ne_nil]

theorem decimal_numeral (nonempty : text ≠ []) (digits : ∀ c ∈ text, isDigit c = true)
    (leading : text.head? ≠ some '0') : 0 < numeral 10 text ∧ decimal (numeral 10 text) = text := by
  induction text using List.reverseRecOn with
  | nil => exact absurd rfl nonempty
  | append_singleton front c ih =>
    obtain ⟨-, small, written⟩ := digit_of_isDigit (digits c (by simp))
    rw [numeral_concat]
    -- A digit alone is no zero; one behind others is the last of what is written for ten times their number and it.
    by_cases alone : front = []
    · subst alone
      have nonzero : digit c ≠ 0 := by
        intro zero
        rw [zero] at written
        exact leading (congrArg some written.symm)
      have none : numeral 10 [] = 0 := rfl
      rw [none, Nat.mul_zero, Nat.zero_add, decimal, Nat.toDigits_of_lt_base small, written]
      exact ⟨Nat.pos_of_ne_zero nonzero, rfl⟩
    · rw [List.head?_append_of_ne_nil _ alone] at leading
      obtain ⟨positive, before⟩ := ih alone (fun c member => digits c (by simp [member])) leading
      refine ⟨by omega, ?_⟩
      rw [decimal, ← Nat.toDigits_append_toDigits (by decide) positive small, Nat.toDigits_of_lt_base small, written]
      exact congrArg (· ++ [c]) before

theorem readCanonicalDecimal?_eq_some : readCanonicalDecimal? text = some n ↔ text = decimal n := by
  constructor
  · intro read
    rw [readCanonicalDecimal?] at read
    split at read
    · cases read
    · next canonical =>
      obtain ⟨⟨nonempty, digits⟩, rfl⟩ := readDecimal?_eq_some.mp read
      -- The one text with a leading zero is that zero.
      by_cases leading : text.head? = some '0'
      · obtain rfl : text = ['0'] := by
          by_contra other
          exact canonical ⟨leading, other⟩
        decide
      · exact (decimal_numeral nonempty (fun c member => isDigit_iff.mpr (digits c member)) leading).2.symm
  · rintro rfl
    rcases Nat.eq_zero_or_pos n with rfl | positive
    · decide
    · rw [readCanonicalDecimal?, if_neg fun leading => head?_decimal positive leading.1, readDecimal?_decimal]

end

end Text

theorem LittleEndian.decode_eq (bytes : Bytes) : decode bytes = Nat.ofDigits 256 (bytes.map UInt8.toNat) := by
  induction bytes with
  | nil => rfl
  | cons byte rest ih => rw [decode, ih, List.map_cons, Nat.ofDigits_cons]

namespace Bytes

def numeral (bytes : Bytes) : Nat := Nat.ofDigits 256 (bytes.map UInt8.toNat).reverse

theorem numeral_cons (byte : UInt8) (rest : Bytes) :
    numeral (byte :: rest) = 256 ^ rest.length * byte.toNat + numeral rest := by
  rw [numeral, List.map_cons, Nat.ofDigits_reverse_cons, List.length_map, Nat.add_comm, numeral]

theorem eq_of_numeral {first second : Bytes} (lengths : first.length = second.length)
    (same : first.numeral = second.numeral) : first = second := by
  rw [numeral, numeral, ← List.map_reverse, ← List.map_reverse, ← LittleEndian.decode_eq,
    ← LittleEndian.decode_eq] at same
  have back := congrArg (LittleEndian.encode first.reverse.length) same
  have lengths' : first.reverse.length = second.reverse.length := by simpa using lengths
  rw [LittleEndian.encode_decode, lengths', LittleEndian.encode_decode] at back
  exact List.reverse_injective back

end Bytes

namespace Hex

open Text

variable {digits : List Char} {bytes : Bytes} {c : Char}

theorem ascii_of_isDigit (shown : IsDigit c) : c.toNat < 128 := by
  rcases shown with ⟨-, last⟩ | ⟨-, last⟩ | ⟨-, last⟩
  · exact Nat.lt_of_le_of_lt (show c.toNat ≤ '9'.toNat from last) (by decide)
  · exact Nat.lt_of_le_of_lt (show c.toNat ≤ 'f'.toNat from last) (by decide)
  · exact Nat.lt_of_le_of_lt (show c.toNat ≤ 'F'.toNat from last) (by decide)

theorem digit_of_digitValue? {n : Nat} (value : digitValue? c = some n) : digit c = n := by
  have shown : IsDigit c := (isSome_digitValue? c).mp (by simp [value])
  have known := of_ascii (fun c => ∀ n ∈ digitValue? c, digit c = n) (by decide) (ascii_of_isDigit shown)
  exact known n value

theorem length_of_spells (spells : Spells digits bytes) : digits.length = 2 * bytes.length := by
  induction spells with
  | nil => rfl
  | cons _ _ _ ih => simp only [List.length_cons, ih]; omega

theorem numeral_of_spells (spells : Spells digits bytes) : bytes.numeral = Text.numeral 16 digits := by
  induction spells with
  | nil => rfl
  | @cons high low digits byte bytes upper lower rest ih =>
    have weight : 256 ^ bytes.length = 16 ^ digits.length := by rw [length_of_spells rest, Nat.pow_mul]
    have whole : byte.toNat = 16 * (byte.toNat / 16) + byte.toNat % 16 := (Nat.div_add_mod _ _).symm
    rw [Bytes.numeral_cons, numeral_cons, numeral_cons, digit_of_digitValue? upper, digit_of_digitValue? lower, ih,
      List.length_cons]
    calc 256 ^ bytes.length * byte.toNat + Text.numeral 16 digits
        = 16 ^ digits.length * (16 * (byte.toNat / 16) + byte.toNat % 16) + Text.numeral 16 digits := by
          rw [weight, ← whole]
      _ = 16 ^ (digits.length + 1) * (byte.toNat / 16) +
          (16 ^ digits.length * (byte.toNat % 16) + Text.numeral 16 digits) := by ring

end Hex

end MoveBytecode
