import MoveBytecode.Proofs.Digits
import MoveBytecode.Proofs.Display

/-! The texts of addresses: hex digits behind a mark or none. Sixty-four of them are an address in full, fewer stand for
one that starts with zeros, and more than one mark or any other character is no part of an address. -/

set_option autoImplicit false

namespace MoveBytecode

namespace Text

theorem length_le_utf8Len (text : List Char) : text.length ≤ String.utf8Len text := by
  induction text with
  | nil => simp
  | cons c rest ih =>
    have positive := c.utf8Size_pos
    rw [List.length_cons, String.utf8Len_cons]
    omega

theorem utf8Len_of_ascii {text : List Char} (ascii : ∀ c ∈ text, c.toNat < 128) :
    String.utf8Len text = text.length := by
  induction text with
  | nil => rfl
  | cons c rest ih =>
    obtain ⟨head, tail⟩ := List.forall_mem_cons.mp ascii
    have one : c.utf8Size = 1 := Char.utf8Size_eq_one_iff.mpr (Nat.le_of_lt_succ head)
    rw [String.utf8Len_cons, ih tail, one, List.length_cons]

end Text

namespace Address

structure Written (text digits : List Char) : Prop where
  marked : text = digits ∨ text = '0' :: 'x' :: digits ∨ text = '0' :: 'X' :: digits
  digits : ∀ c ∈ digits, Hex.IsDigit c

def number (address : Address) : Nat := address.bytes.numeral

/-- So many hex digits of a number -/
def HasDigits (text : List Char) (count number : Nat) : Prop :=
  ∃ digits, Written text digits ∧ digits.length = count ∧ Text.numeral 16 digits = number

/-- One to 64 hex digits of a number -/
def Denotes (text : String) (number : Nat) : Prop := ∃ count, 1 ≤ count ∧ count ≤ 64 ∧ HasDigits text.toList count number

variable {text digits : List Char} {address : Address}

theorem eq_of_number {other : Address} (same : address.number = other.number) : address = other := by
  obtain ⟨bytes, length⟩ := address
  obtain ⟨others, length'⟩ := other
  obtain rfl : bytes = others := Bytes.eq_of_numeral (length.trans length'.symm) same
  rfl

/-- Where numbers decide which address is read, each address is read where its own number is. -/
theorem iff_of_exists {reads : Address → Prop} {holds : Nat → Prop}
    (exact : ∀ number, (∃ address, reads address ∧ address.number = number) ↔ holds number) :
    reads address ↔ holds address.number := by
  rw [← exact]
  constructor
  · intro read
    exact ⟨address, read, rfl⟩
  · rintro ⟨other, read, same⟩
    rwa [← eq_of_number same]

/-- A mark has a character that is no digit, so digits do not start with one. -/
theorem withoutMark_of_digits (all : ∀ c ∈ digits, Hex.IsDigit c) : withoutMark digits = digits := by
  have small : ¬Hex.IsDigit 'x' := by unfold Hex.IsDigit; decide
  have capital : ¬Hex.IsDigit 'X' := by unfold Hex.IsDigit; decide
  fun_cases withoutMark digits with
  | case1 rest => exact absurd (all 'x' (by simp)) small
  | case2 rest => exact absurd (all 'X' (by simp)) capital
  | case3 => rfl

theorem written_iff : Written text digits ↔ withoutMark text = digits ∧ ∀ c ∈ digits, Hex.IsDigit c := by
  constructor
  · rintro ⟨rfl | rfl | rfl, all⟩
    · exact ⟨withoutMark_of_digits all, all⟩
    · exact ⟨rfl, all⟩
    · exact ⟨rfl, all⟩
  · rintro ⟨rfl, all⟩
    refine ⟨?_, all⟩
    fun_cases withoutMark text with
    | case1 rest => exact .inr (.inl rfl)
    | case2 rest => exact .inr (.inr rfl)
    | case3 => exact .inl rfl

theorem ofHex?_eq_some : ofHex? text = some address ↔ Hex.Spells (withoutMark text) address.bytes := by
  rw [ofHex?, Option.bind_eq_some_iff]
  simp only [Hex.decode?_eq_some]
  constructor
  · rintro ⟨bytes, spells, made⟩
    rw [ofBytes?] at made
    split at made <;> cases made
    exact spells
  · intro spells
    exact ⟨address.bytes, spells, dif_pos address.length_eq⟩

theorem exists_ofHex?_iff {number : Nat} :
    (∃ address, ofHex? text = some address ∧ address.number = number) ↔ HasDigits text 64 number := by
  simp only [ofHex?_eq_some]
  constructor
  · rintro ⟨address, spells, rfl⟩
    have all := (Hex.exists_spells.mp ⟨_, spells⟩).2
    have count : (withoutMark text).length = 64 := by rw [Hex.length_of_spells spells, address.length_eq]
    exact ⟨_, written_iff.mpr ⟨rfl, all⟩, count, (Hex.numeral_of_spells spells).symm⟩
  · rintro ⟨digits, written, count, rfl⟩
    obtain ⟨rfl, all⟩ := written_iff.mp written
    obtain ⟨bytes, spells⟩ := Hex.exists_spells.mpr ⟨by omega, all⟩
    have twice := Hex.length_of_spells spells
    exact ⟨⟨bytes, by omega⟩, spells, Hex.numeral_of_spells spells⟩

theorem ofHex_eq_ok {text : String} : ofHex text = .ok address ↔ ofHex? text.toList = some address := by
  unfold ofHex
  cases ofHex? text.toList <;> simp

def filled (text : List Char) : List Char := List.leftpad 64 '0' (withoutMark text)

theorem ofShortHex_eq_ok {text : String} : ofShortHex text = .ok address ↔
    withoutMark text.toList ≠ [] ∧ String.utf8Len (withoutMark text.toList) ≤ 64 ∧
      ofHex? (filled text.toList) = some address := by
  have empty : (String.ofList (withoutMark text.toList)).isEmpty = true ↔ withoutMark text.toList = [] := by
    rw [String.isEmpty_iff, String.ofList_eq_empty_iff]
  have refusal : (String.ofList (withoutMark text.toList)).isEmpty = true ∨
      (String.ofList (withoutMark text.toList)).utf8ByteSize > 64 ↔
      ¬(withoutMark text.toList ≠ [] ∧ String.utf8Len (withoutMark text.toList) ≤ 64) := by
    rw [empty, String.utf8ByteSize_ofList, not_and_or, not_not, Nat.not_le]
  rw [ofShortHex, ← and_assoc]
  by_cases taken : withoutMark text.toList ≠ [] ∧ String.utf8Len (withoutMark text.toList) ≤ 64
  · rw [if_neg fun refused => refusal.mp refused taken, and_iff_right taken, ofHex_eq_ok, String.toList_ofList,
      String.toList_ofList, filled]
  · rw [if_pos (refusal.mpr taken)]
    simp only [taken, false_and, reduceCtorEq]

/-- Digits filled up to 64 with zeros leave no room for a mark, so they are digits that were there before. -/
theorem hasDigits_filled {number : Nat} (count : (withoutMark text).length ≤ 64) :
    HasDigits (filled text) 64 number ↔ HasDigits text (withoutMark text).length number := by
  have length : (filled text).length = 64 := by rw [filled, List.length_leftpad]; omega
  have split : filled text = List.replicate (64 - (withoutMark text).length) '0' ++ withoutMark text := rfl
  have zero : Hex.IsDigit '0' := by unfold Hex.IsDigit; decide
  constructor
  · rintro ⟨digits, ⟨marked, all⟩, full, rfl⟩
    -- The filled text has 64 characters as it is, so there is no room for a mark before 64 digits.
    have alone : filled text = digits := by
      rcases marked with same | same | same
      · exact same
      · rw [same, List.length_cons, List.length_cons] at length
        omega
      · rw [same, List.length_cons, List.length_cons] at length
        omega
    rw [← alone, split, List.forall_mem_append] at all
    refine ⟨withoutMark text, written_iff.mpr ⟨rfl, all.2⟩, rfl, ?_⟩
    rw [← alone, split, Text.numeral_zeros]
  · rintro ⟨digits, written, -, rfl⟩
    obtain ⟨rfl, all⟩ := written_iff.mp written
    refine ⟨filled text, ⟨.inl rfl, ?_⟩, length, ?_⟩
    · rw [split, List.forall_mem_append]
      exact ⟨fun c member => List.eq_of_mem_replicate member ▸ zero, all⟩
    · rw [split, Text.numeral_zeros]

theorem exists_ofShortHex_iff {text : String} {number : Nat} :
    (∃ address, ofShortHex text = .ok address ∧ address.number = number) ↔ Denotes text number := by
  simp only [ofShortHex_eq_ok]
  constructor
  · rintro ⟨address, ⟨nonempty, size, read⟩, same⟩
    have count := (Text.length_le_utf8Len (withoutMark text.toList)).trans size
    exact ⟨_, List.length_pos_iff.mpr nonempty, count,
      (hasDigits_filled count).mp (exists_ofHex?_iff.mp ⟨address, read, same⟩)⟩
  · rintro ⟨count, positive, small, digits, written, rfl, same⟩
    obtain ⟨rfl, all⟩ := written_iff.mp written
    obtain ⟨address, read, same⟩ :=
      exists_ofHex?_iff.mpr ((hasDigits_filled small).mpr ⟨_, written, rfl, same⟩)
    have size := Text.utf8Len_of_ascii fun c member => Hex.ascii_of_isDigit (all c member)
    exact ⟨address, ⟨List.length_pos_iff.mp positive, size ▸ small, read⟩, same⟩

theorem ofShortHex_iff {text : String} : ofShortHex text = .ok address ↔ Denotes text address.number :=
  iff_of_exists fun _ => exists_ofShortHex_iff

theorem Denotes.unique {text : String} {first second : Nat} (denotes : Denotes text first)
    (denotes' : Denotes text second) : first = second := by
  obtain ⟨address, read, rfl⟩ := exists_ofShortHex_iff.mpr denotes
  obtain ⟨other, read', rfl⟩ := exists_ofShortHex_iff.mpr denotes'
  cases read.symm.trans read'
  rfl

theorem ofHex_iff {text : String} : ofHex text = .ok address ↔ HasDigits text.toList 64 address.number :=
  ofHex_eq_ok.trans (iff_of_exists fun _ => exists_ofHex?_iff)

theorem ofHex_display (address : Address) : ofHex (String.ofList address.display) = .ok address := by
  rw [ofHex_eq_ok, String.toList_ofList, ofHex?_display]

theorem ofShortHex_of_ofHex {text : String} (read : ofHex text = .ok address) : ofShortHex text = .ok address :=
  ofShortHex_iff.mpr ⟨64, by decide, le_rfl, ofHex_iff.mp read⟩

end Address

end MoveBytecode
