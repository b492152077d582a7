import Mathlib
import MoveBytecode.Address

/-! Numbers, hex digits and text read back from the bytes and digits they are written in, and the digits that spell
bytes. -/

set_option autoImplicit false

namespace MoveBytecode

namespace LittleEndian

@[simp] theorem length_encode (width n : Nat) : (encode width n).length = width := by
  induction width generalizing n with
  | zero => rfl
  | succ width ih => simp [encode, ih]

theorem decode_lt (bytes : Bytes) : decode bytes < 256 ^ bytes.length := by
  induction bytes with
  | nil => simp [decode]
  | cons byte rest ih =>
    have small := byte.toNat_lt
    simp only [decode, List.length_cons, Nat.pow_succ]
    omega

theorem decode_encode {width n : Nat} (fits : n < 256 ^ width) : decode (encode width n) = n := by
  induction width generalizing n with
  | zero =>
    have none : n = 0 := by simpa using fits
    simp [encode, decode, none]
  | succ width ih =>
    have tail : n / 256 < 256 ^ width := by
      rw [Nat.pow_succ] at fits
      omega
    simp only [encode, decode, ih tail, UInt8.toNat_ofNat']
    omega

@[simp] theorem encode_decode (bytes : Bytes) : encode bytes.length (decode bytes) = bytes := by
  induction bytes with
  | nil => rfl
  | cons byte rest ih =>
    have small := byte.toNat_lt
    have head : (byte.toNat + 256 * decode rest) % 256 = byte.toNat := by omega
    have tail : (byte.toNat + 256 * decode rest) / 256 = decode rest := by omega
    simp only [List.length_cons, decode, encode, head, tail, ih, UInt8.ofNat_toNat]

end LittleEndian

namespace Hex

def IsDigit (c : Char) : Prop := '0' ≤ c ∧ c ≤ '9' ∨ 'a' ≤ c ∧ c ≤ 'f' ∨ 'A' ≤ c ∧ c ≤ 'F'

/-- Two digits for each byte, the high half first. -/
inductive Spells : List Char → Bytes → Prop where
  | nil : Spells [] []
  | cons {high low : Char} {digits : List Char} {byte : UInt8} {bytes : Bytes}
      (upper : digitValue? high = some (byte.toNat / 16)) (lower : digitValue? low = some (byte.toNat % 16))
      (rest : Spells digits bytes) : Spells (high :: low :: digits) (byte :: bytes)

theorem digitValue?_digitChar {n : Nat} (small : n < 16) : digitValue? (Nat.digitChar n) = some n := by
  have each : ∀ m : Fin 16, digitValue? (Nat.digitChar m) = some m.val := by decide
  exact each ⟨n, small⟩

theorem isSome_digitValue? (c : Char) : (digitValue? c).isSome = true ↔ IsDigit c := by
  unfold digitValue? IsDigit
  split_ifs <;> simp_all

theorem isDigit_iff (c : Char) : isDigit c = true ↔ IsDigit c := by simp [isDigit, IsDigit, or_assoc]

theorem digitValue?_lt {c : Char} {n : Nat} (value : digitValue? c = some n) : n < 16 := by
  unfold digitValue? at value
  split_ifs at value with digit small capital <;> cases value
  · have last : c.toNat ≤ '9'.toNat := digit.2
    exact Nat.lt_of_le_of_lt (Nat.sub_le_sub_right last _) (by decide)
  · have last : c.toNat ≤ 'f'.toNat := small.2
    exact Nat.lt_of_le_of_lt (Nat.add_le_add_right (Nat.sub_le_sub_right last _) 10) (by decide)
  · have last : c.toNat ≤ 'F'.toNat := capital.2
    exact Nat.lt_of_le_of_lt (Nat.add_le_add_right (Nat.sub_le_sub_right last _) 10) (by decide)

theorem byte_of_halves {high low : Nat} (small : high < 16) (small' : low < 16) {byte : UInt8} :
    UInt8.ofNat (16 * high + low) = byte ↔ high = byte.toNat / 16 ∧ low = byte.toNat % 16 := by
  have bound := byte.toNat_lt
  rw [← UInt8.toNat_inj, UInt8.toNat_ofNat']
  omega

theorem decode?_eq_some {digits : List Char} {bytes : Bytes} : decode? digits = some bytes ↔ Spells digits bytes := by
  constructor
  · intro read
    fun_induction decode? digits generalizing bytes with
    | case1 =>
      cases read
      exact .nil
    | case2 => cases read
    | case3 high low rest ih =>
      simp only [Option.bind_eq_bind, Option.bind_eq_some_iff, Option.pure_def, Option.some.injEq] at read
      obtain ⟨upper, first, lower, second, tail, others, rfl⟩ := read
      obtain ⟨half, half'⟩ := (byte_of_halves (digitValue?_lt first) (digitValue?_lt second)).mp rfl
      exact .cons (first.trans (congrArg some half)) (second.trans (congrArg some half')) (ih others)
  · intro spells
    induction spells with
    | nil => rfl
    | @cons high low digits byte bytes upper lower rest ih =>
      have whole := (byte_of_halves (digitValue?_lt upper) (digitValue?_lt lower)).mpr ⟨rfl, rfl⟩
      rw [decode?, upper, lower, ih]
      exact congrArg (fun first => some (first :: bytes)) whole

theorem spells_encode (bytes : Bytes) : Spells (encode bytes) bytes := by
  induction bytes with
  | nil => exact .nil
  | cons byte rest ih =>
    have bound := byte.toNat_lt
    exact .cons (digitValue?_digitChar (by omega)) (digitValue?_digitChar (by omega)) ih

@[simp] theorem decode?_encode (bytes : Bytes) : decode? (encode bytes) = some bytes :=
  decode?_eq_some.mpr (spells_encode bytes)

theorem exists_spells {digits : List Char} :
    (∃ bytes, Spells digits bytes) ↔ digits.length % 2 = 0 ∧ ∀ c ∈ digits, IsDigit c := by
  simp only [← decode?_eq_some, ← Option.isSome_iff_exists, ← isSome_digitValue?]
  fun_induction decode? digits with
  | case1 => simp
  | case2 => simp
  | case3 high low rest ih =>
    cases first : digitValue? high with
    | none => simp [first]
    | some upper =>
      cases second : digitValue? low with
      | none => simp [second]
      | some lower =>
        -- Two digits more change nothing about the parity, and are digits.
        have even : (high :: low :: rest).length % 2 = rest.length % 2 := Nat.add_mod_right rest.length 2
        have digits : (∀ c ∈ high :: low :: rest, (digitValue? c).isSome = true) ↔
            ∀ c ∈ rest, (digitValue? c).isSome = true := by simp [first, second]
        rw [even, digits, ← ih]
        cases decode? rest <;> rfl

end Hex

namespace Bytes

theorem toText?_eq_some {bytes : Bytes} {text : String} : bytes.toText? = some text ↔ ofText text = bytes := by
  unfold toText? ofText String.fromUTF8?
  constructor
  · intro shown
    split at shown
    · cases shown
      rfl
    · cases shown
  · rintro rfl
    have valid : ByteArray.IsValidUTF8 ⟨text.toUTF8.data.toList.toArray⟩ := text.isValidUTF8
    rw [dif_pos valid]
    rfl

@[simp] theorem toText?_ofText (text : String) : (ofText text).toText? = some text := toText?_eq_some.mpr rfl

section
variable {α : Type} {write : α → Bytes} {value : α} {values : List α}

theorem length_le_flatMap (member : value ∈ values) : (write value).length ≤ (values.flatMap write).length :=
  (List.sublist_flatten_of_mem (List.mem_map_of_mem member)).length_le

theorem count_le_flatMap (nonempty : ∀ value, write value ≠ []) : values.length ≤ (values.flatMap write).length := by
  induction values with
  | nil => simp
  | cons first rest ih =>
    have positive := List.length_pos_iff.mpr (nonempty first)
    rw [List.flatMap_cons, List.length_append, List.length_cons]
    omega

theorem flatMap_eq_nil (nonempty : ∀ value, write value ≠ []) : values.flatMap write = [] ↔ values = [] := by
  constructor
  · intro empty
    have count : values.length ≤ _ := count_le_flatMap nonempty
    rw [empty] at count
    exact List.eq_nil_of_length_eq_zero (Nat.le_zero.mp count)
  · intro empty
    rw [empty, List.flatMap_nil]

end

end Bytes

end MoveBytecode
