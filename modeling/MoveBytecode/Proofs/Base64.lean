import Mathlib
import MoveBytecode.Base64

/-! A text in base64 is read exactly if some bytes are written as it: each byte string has one text, and no other text is
read. -/

set_option autoImplicit false

namespace MoveBytecode.Base64

theorem digitValue?_digit {n : Nat} (small : n < 64) : digitValue? (digit n) = some n := by
  have each : ∀ m : Fin 64, digitValue? (digit m) = some m.val := by decide
  exact each ⟨n, small⟩

theorem digitValue?_eq_some {c : Char} {n : Nat} : digitValue? c = some n ↔ n < 64 ∧ c = digit n := by
  constructor
  · intro shown
    have upper : 'A'.toNat = 65 ∧ 'Z'.toNat = 90 := ⟨rfl, rfl⟩
    have lower : 'a'.toNat = 97 ∧ 'z'.toNat = 122 := ⟨rfl, rfl⟩
    have numeral : '0'.toNat = 48 ∧ '9'.toNat = 57 := ⟨rfl, rfl⟩
    -- One range of characters after the other, in the order in which they are tried.
    unfold digitValue? at shown
    split at shown
    · next range =>
      have low : 'A'.toNat ≤ c.toNat := range.1
      have high : c.toNat ≤ 'Z'.toNat := range.2
      cases shown
      refine ⟨by omega, ?_⟩
      rw [digit, if_pos (by omega), Nat.add_sub_cancel' low, Char.ofNat_toNat]
    · split at shown
      · next range =>
        have low : 'a'.toNat ≤ c.toNat := range.1
        have high : c.toNat ≤ 'z'.toNat := range.2
        cases shown
        refine ⟨by omega, ?_⟩
        rw [digit, if_neg (by omega), if_pos (by omega), Nat.add_sub_cancel, Nat.add_sub_cancel' low, Char.ofNat_toNat]
      · split at shown
        · next range =>
          have low : '0'.toNat ≤ c.toNat := range.1
          have high : c.toNat ≤ '9'.toNat := range.2
          cases shown
          refine ⟨by omega, ?_⟩
          rw [digit, if_neg (by omega), if_neg (by omega), if_pos (by omega), Nat.add_sub_cancel,
            Nat.add_sub_cancel' low, Char.ofNat_toNat]
        · split at shown
          · next plus =>
            cases shown
            exact ⟨by decide, plus⟩
          · split at shown
            · next slash =>
              cases shown
              exact ⟨by decide, slash⟩
            · cases shown
  · rintro ⟨small, rfl⟩
    exact digitValue?_digit small

theorem digit_ne_filler {n : Nat} (small : n < 64) : digit n ≠ '=' := by
  intro same
  have shown := digitValue?_digit small
  rw [same] at shown
  cases shown

section
variable {a b c d : Nat}

/-! Three bytes are four digits; fewer bytes at the end are fewer digits. -/

theorem decode?_one (ha : a < 64) (hb : b < 64) : decode? [digit a, digit b, '=', '='] =
    if b % 16 = 0 then some [UInt8.ofNat (a * 4 + b / 16)] else none := by
  simp [decode?, lastByte?, digitValue?_digit ha, digitValue?_digit hb]

theorem decode?_two (ha : a < 64) (hb : b < 64) (hc : c < 64) : decode? [digit a, digit b, digit c, '='] =
    if c % 4 = 0 then some [UInt8.ofNat (a * 4 + b / 16), UInt8.ofNat (b % 16 * 16 + c / 4)] else none := by
  simp [decode?, lastBytes?, digit_ne_filler hc, digitValue?_digit ha, digitValue?_digit hb, digitValue?_digit hc]

theorem decode?_three (ha : a < 64) (hb : b < 64) (hc : c < 64) (hd : d < 64) (rest : List Char) :
    decode? (digit a :: digit b :: digit c :: digit d :: rest) = (decode? rest).map fun bytes =>
      UInt8.ofNat (a * 4 + b / 16) :: UInt8.ofNat (b % 16 * 16 + c / 4) :: UInt8.ofNat (c % 4 * 64 + d) :: bytes := by
  simp only [decode?, digit_ne_filler hd, false_and, if_false, digitValue?_digit ha, digitValue?_digit hb,
    digitValue?_digit hc, digitValue?_digit hd]
  cases decode? rest <;> rfl

theorem encode_one (ha : a < 64) (hb : b < 64) (spare : b % 16 = 0) :
    encode [UInt8.ofNat (a * 4 + b / 16)] = [digit a, digit b, '=', '='] := by
  have first : (a * 4 + b / 16) % 256 / 4 = a := by omega
  have second : (a * 4 + b / 16) % 256 % 4 * 16 = b := by omega
  rw [encode, UInt8.toNat_ofNat', first, second]

theorem encode_two (ha : a < 64) (hb : b < 64) (hc : c < 64) (spare : c % 4 = 0) :
    encode [UInt8.ofNat (a * 4 + b / 16), UInt8.ofNat (b % 16 * 16 + c / 4)] = [digit a, digit b, digit c, '='] := by
  have first : (a * 4 + b / 16) % 256 / 4 = a := by omega
  have second : (a * 4 + b / 16) % 256 % 4 * 16 + (b % 16 * 16 + c / 4) % 256 / 16 = b := by omega
  have third : (b % 16 * 16 + c / 4) % 256 % 16 * 4 = c := by omega
  rw [encode, UInt8.toNat_ofNat', UInt8.toNat_ofNat', first, second, third]

theorem encode_three (ha : a < 64) (hb : b < 64) (hc : c < 64) (hd : d < 64) (rest : Bytes) :
    encode (UInt8.ofNat (a * 4 + b / 16) :: UInt8.ofNat (b % 16 * 16 + c / 4) :: UInt8.ofNat (c % 4 * 64 + d) :: rest) =
      digit a :: digit b :: digit c :: digit d :: encode rest := by
  have first : (a * 4 + b / 16) % 256 / 4 = a := by omega
  have second : (a * 4 + b / 16) % 256 % 4 * 16 + (b % 16 * 16 + c / 4) % 256 / 16 = b := by omega
  have third : (b % 16 * 16 + c / 4) % 256 % 16 * 4 + (c % 4 * 64 + d) % 256 / 64 = c := by omega
  have fourth : (c % 4 * 64 + d) % 256 % 64 = d := by omega
  rw [encode, UInt8.toNat_ofNat', UInt8.toNat_ofNat', UInt8.toNat_ofNat', first, second, third, fourth]

end

@[simp] theorem decode?_encode (bytes : Bytes) : decode? (encode bytes) = some bytes := by
  induction bytes using encode.induct with
  | case1 => rfl
  | case2 a =>
    have small := a.toNat_lt
    have whole : a.toNat / 4 * 4 + a.toNat % 4 * 16 / 16 = a.toNat := by omega
    rw [encode, decode?_one (by omega) (by omega), if_pos (by omega), whole, UInt8.ofNat_toNat]
  | case3 a b =>
    have small := a.toNat_lt
    have small' := b.toNat_lt
    have whole : a.toNat / 4 * 4 + (a.toNat % 4 * 16 + b.toNat / 16) / 16 = a.toNat := by omega
    have whole' : (a.toNat % 4 * 16 + b.toNat / 16) % 16 * 16 + b.toNat % 16 * 4 / 4 = b.toNat := by omega
    rw [encode, decode?_two (by omega) (by omega) (by omega), if_pos (by omega), whole, whole', UInt8.ofNat_toNat,
      UInt8.ofNat_toNat]
  | case4 a b c rest ih =>
    have small := a.toNat_lt
    have small' := b.toNat_lt
    have small'' := c.toNat_lt
    have whole : a.toNat / 4 * 4 + (a.toNat % 4 * 16 + b.toNat / 16) / 16 = a.toNat := by omega
    have whole' : (a.toNat % 4 * 16 + b.toNat / 16) % 16 * 16 + (b.toNat % 16 * 4 + c.toNat / 64) / 4 = b.toNat := by
      omega
    have whole'' : (b.toNat % 16 * 4 + c.toNat / 64) % 4 * 64 + c.toNat % 64 = c.toNat := by omega
    rw [encode, decode?_three (by omega) (by omega) (by omega) (by omega), ih, Option.map_some, whole, whole', whole'',
      UInt8.ofNat_toNat, UInt8.ofNat_toNat, UInt8.ofNat_toNat]

theorem encode_of_decode? {text : List Char} {bytes : Bytes} (read : decode? text = some bytes) :
    encode bytes = text := by
  induction text using decode?.induct generalizing bytes with
  | case1 =>
    cases read
    rfl
  | case2 first second fourth rest last =>
    -- Without the check on the spare bits, several last digits would stand for the same byte.
    obtain ⟨rfl, rfl⟩ := last
    simp only [decode?, and_self, if_true, lastByte?, Option.bind_eq_bind, Option.bind_eq_some_iff,
      digitValue?_eq_some] at read
    obtain ⟨a, ⟨ha, rfl⟩, b, ⟨hb, rfl⟩, read⟩ := read
    split at read
    · next spare =>
      cases read
      exact encode_one ha hb spare
    · cases read
  | case3 first second third fourth rest last unfilled =>
    obtain ⟨rfl, rfl⟩ := last
    simp only [decode?, and_self, if_true, if_neg unfilled, lastBytes?, Option.bind_eq_bind, Option.bind_eq_some_iff,
      digitValue?_eq_some] at read
    obtain ⟨a, ⟨ha, rfl⟩, b, ⟨hb, rfl⟩, c, ⟨hc, rfl⟩, read⟩ := read
    split at read
    · next spare =>
      cases read
      exact encode_two ha hb hc spare
    · cases read
  | case4 first second third fourth rest more ih =>
    simp only [decode?, if_neg more, Option.bind_eq_bind, Option.bind_eq_some_iff, Option.pure_def, Option.some.injEq,
      digitValue?_eq_some] at read
    obtain ⟨a, ⟨ha, rfl⟩, b, ⟨hb, rfl⟩, c, ⟨hc, rfl⟩, d, ⟨hd, rfl⟩, behind, read, rfl⟩ := read
    rw [encode_three ha hb hc hd, ih read]
  | case5 text short long =>
    rw [decode?] at read
    · cases read
    all_goals assumption

theorem decode?_eq_some {text : List Char} {bytes : Bytes} : decode? text = some bytes ↔ text = encode bytes :=
  ⟨fun read => (encode_of_decode? read).symm, fun written => written ▸ decode?_encode bytes⟩

end MoveBytecode.Base64
