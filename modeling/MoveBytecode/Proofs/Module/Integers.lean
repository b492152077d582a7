import MoveBytecode.Proofs.Digits
import MoveBytecode.Proofs.Module.Edits

/-! Constants that are whole numbers. Decimal digits are read as the number they have and refused where the width has no
room for it, so that nothing of a number is ever cut off, and the payload has the bytes of that number. -/

set_option autoImplicit false

namespace MoveBytecode

namespace Value

variable {width : Width} {text : String} {number : Nat}

/-- Decimal digits of a number that the width has room for. -/
structure IsNumber (width : Width) (text : String) (number : Nat) : Prop where
  digits : Text.IsDecimal text.toList
  value : Text.numeral 10 text.toList = number
  fits : number < 2 ^ width.bits

theorem isNumber_iff : (Text.readDecimal? text.toList).filter (· < Nat.pow 2 width.bits) = some number ↔
    IsNumber width text number := by
  rw [Option.filter_eq_some_iff, Text.readDecimal?_eq_some, decide_eq_true_eq]
  constructor
  · rintro ⟨⟨digits, value⟩, fits⟩
    exact ⟨digits, value, fits⟩
  · rintro ⟨digits, value, fits⟩
    exact ⟨⟨digits, value⟩, fits⟩

theorem IsNumber.unique {other : Nat} (is : IsNumber width text number) (is' : IsNumber width text other) :
    number = other := is.value.symm.trans is'.value

theorem isNumber_decimal (count : Nat) (fits : number < 2 ^ width.bits) :
    IsNumber width (String.ofList (List.replicate count '0' ++ Text.decimal number)) number := by
  obtain ⟨⟨nonempty, digits⟩, value⟩ := Text.readDecimal?_eq_some.mp (Text.readDecimal?_decimal number)
  refine ⟨?_, ?_, fits⟩
  · rw [String.toList_ofList]
    refine ⟨List.append_ne_nil_of_right_ne_nil _ nonempty, List.forall_mem_append.mpr ⟨fun c member => ?_, digits⟩⟩
    rw [List.eq_of_mem_replicate member]
    decide
  · rw [String.toList_ofList, Text.numeral_zeros, value]

theorem parse_of_isNumber (is : IsNumber width text number) :
    parse (.uint width) text = .ok (.uint width number) := by
  rw [parse, parseAt, isNumber_iff.mpr is]

theorem parse_of_not_isNumber (none : ∀ number, ¬IsNumber width text number) :
    parse (.uint width) text = .error ⟨text, .uint width, .decimalInRange⟩ := by
  rw [parse, parseAt]
  split
  · next number found => exact absurd (isNumber_iff.mp found) (none number)
  · rw [String.ofList_toList]

theorem parse_uint_cases (width : Width) (text : String) :
    (∃ number, IsNumber width text number ∧ parse (.uint width) text = .ok (.uint width number)) ∨
    (∀ number, ¬IsNumber width text number) ∧ parse (.uint width) text = .error ⟨text, .uint width, .decimalInRange⟩ := by
  by_cases is : ∃ number, IsNumber width text number
  · obtain ⟨number, is⟩ := is
    exact .inl ⟨number, is, parse_of_isNumber is⟩
  · have none := not_exists.mp is
    exact .inr ⟨none, parse_of_not_isNumber none⟩

theorem payload_uint (fits : number < 2 ^ width.bits) :
    (Value.uint width number).payload.length = width.bits / 8 ∧
      Nat.ofDigits 256 ((Value.uint width number).payload.map UInt8.toNat) = number := by
  rw [payload, ← LittleEndian.decode_eq, LittleEndian.decode_encode (bits_power width ▸ fits),
    LittleEndian.length_encode, Width.bits, Nat.mul_div_cancel_left _ (by decide)]
  exact ⟨rfl, rfl⟩

end Value

namespace Module

open Value

section
variable {module : Module} {index : Nat} {constant : Constant} {width : Width} {text : String}
  (found : module.constants[index]? = some constant) (type : constant.ty = .uint width)

include found type

theorem replaceConstant_of_isNumber {number : Nat} (is : IsNumber width text number) :
    module.replaceConstant index text =
      .ok { module with constants := module.constants.set index ⟨.uint width, .uint width number⟩ } := by
  refine replaceConstant_eq_ok.mpr ⟨constant, .uint width number, found, ?_, ?_⟩
  · rw [type, parse_of_isNumber is]
  · rw [type]

theorem replaceConstant_of_not_isNumber (none : ∀ number, ¬IsNumber width text number) :
    module.replaceConstant index text = .error (.typeMismatch index ⟨text, .uint width, .decimalInRange⟩) := by
  rw [replaceConstant_eq, found]
  simp only [type, parse_of_not_isNumber none]

end

/-- A whole number is read from its decimal digits, with any zeros before them, and from nothing else, and only where it
fits. A constant that takes it has the bytes of that number and no other, the least significant first. -/
theorem parse_uint_iff (width : Width) :
    (∀ text value, parse (.uint width) text = .ok value ↔
      ∃ number, IsNumber width text number ∧ value = .uint width number) ∧
    (∀ text error, parse (.uint width) text = .error error ↔
      (∀ number, ¬IsNumber width text number) ∧ error = ⟨text, .uint width, .decimalInRange⟩) ∧
    (∀ count number, number < 2 ^ width.bits →
      IsNumber width (String.ofList (List.replicate count '0' ++ Text.decimal number)) number) ∧
    (∀ (module : Module) (index : Nat) (constant : Constant) (text : String),
      module.constants[index]? = some constant → constant.ty = .uint width →
      (∀ number, IsNumber width text number → module.replaceConstant index text =
        .ok { module with constants := module.constants.set index ⟨.uint width, .uint width number⟩ }) ∧
      ((∀ number, ¬IsNumber width text number) → module.replaceConstant index text =
        .error (.typeMismatch index ⟨text, .uint width, .decimalInRange⟩))) ∧
    ∀ number, number < 2 ^ width.bits → (Value.uint width number).payload.length = width.bits / 8 ∧
      Nat.ofDigits 256 ((Value.uint width number).payload.map UInt8.toNat) = number := by
  refine ⟨fun text value => ?_, fun text error => ?_, fun count number => isNumber_decimal count,
    fun module index constant text found type => ⟨fun number => replaceConstant_of_isNumber found type,
      replaceConstant_of_not_isNumber found type⟩, fun number => payload_uint⟩
  · rcases parse_uint_cases width text with ⟨number, is, parsed⟩ | ⟨none, refused⟩
    · rw [parsed]
      constructor
      · rintro ⟨⟩
        exact ⟨number, is, rfl⟩
      · rintro ⟨other, is', rfl⟩
        rw [is.unique is']
    · rw [refused]
      simp [none]
  · rcases parse_uint_cases width text with ⟨number, is, parsed⟩ | ⟨none, refused⟩
    · rw [parsed]
      constructor
      · rintro ⟨⟩
      · rintro ⟨none, -⟩
        exact absurd is (none number)
    · rw [refused]
      simp [none, eq_comm]

def counted : Module := { coin with constants := [⟨.uint .w16, .uint .w16 7⟩] }

theorem parse_uint_counted :
    Value.parse (.uint .w16) "0065535" = .ok (.uint .w16 65535) ∧
    counted.replaceConstant 0 "0065535" = .ok { counted with constants := [⟨.uint .w16, .uint .w16 65535⟩] } ∧
    counted.replaceConstant 0 "65536" = .error (.typeMismatch 0 ⟨"65536", .uint .w16, .decimalInRange⟩) ∧
    Nat.ofDigits 256 ((Value.uint .w16 65535).payload.map UInt8.toNat) = 65535 := by
  obtain ⟨reads, -, -, replaces, writes⟩ := parse_uint_iff .w16
  have highest : IsNumber .w16 "0065535" 65535 := isNumber_iff.mp (by decide +kernel)
  have beyond (number : Nat) : ¬IsNumber .w16 "65536" number := by
    have none : (Text.readDecimal? "65536".toList).filter (· < Nat.pow 2 Width.w16.bits) = none := by decide +kernel
    rw [← isNumber_iff, none]
    exact nofun
  have replaced := fun text => replaces counted 0 ⟨.uint .w16, .uint .w16 7⟩ text rfl rfl
  exact ⟨(reads _ _).mpr ⟨_, highest, rfl⟩, (replaced "0065535").1 _ highest, (replaced "65536").2 beyond,
    (writes 65535 (by decide)).2⟩

end Module

end MoveBytecode
