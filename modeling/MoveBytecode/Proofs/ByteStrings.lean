import MoveBytecode.Proofs.Digits
import MoveBytecode.Proofs.Items

/-! Byte strings that stand alone. Any text is read as one: a literal as the bytes it spells, every other text as its
own. What is shown is that text again, or a literal where bytes are no text or one that looks like a literal. -/

set_option autoImplicit false

namespace MoveBytecode

namespace Hex

def IsLower (c : Char) : Prop := '0' ≤ c ∧ c ≤ '9' ∨ 'a' ≤ c ∧ c ≤ 'f'

instance (c : Char) : Decidable (IsLower c) := inferInstanceAs (Decidable (_ ∨ _))

theorem isLower_digitChar {n : Nat} (small : n < 16) : IsLower (Nat.digitChar n) := by
  have each : ∀ m : Fin 16, IsLower (Nat.digitChar m) := by decide
  exact each ⟨n, small⟩

theorem isLower_of_mem_encode {bytes : Bytes} {c : Char} (member : c ∈ encode bytes) : IsLower c := by
  obtain ⟨byte, _, digit⟩ := List.mem_flatMap.mp member
  have bound := byte.toNat_lt
  simp only [digits, List.mem_cons, List.not_mem_nil, or_false] at digit
  rcases digit with rfl | rfl
  · exact isLower_digitChar (by omega)
  · exact isLower_digitChar (by omega)

theorem digitChar_of_digitValue? {c : Char} {n : Nat} (lower : IsLower c) (value : digitValue? c = some n) :
    c = Nat.digitChar n := by
  have shown : IsDigit c := (isSome_digitValue? c).mp (by simp [value])
  have known := Text.of_ascii (fun c => IsLower c → ∀ n ∈ digitValue? c, c = Nat.digitChar n) (by decide)
    (ascii_of_isDigit shown)
  exact known lower n value

theorem eq_encode_of_spells {digits : List Char} {bytes : Bytes} (spells : Spells digits bytes)
    (lower : ∀ c ∈ digits, IsLower c) : digits = encode bytes := by
  induction spells with
  | nil => rfl
  | @cons high low digits byte bytes upper lowest rest ih =>
    obtain ⟨first, others⟩ := List.forall_mem_cons.mp lower
    obtain ⟨second, others⟩ := List.forall_mem_cons.mp others
    rw [digitChar_of_digitValue? first upper, digitChar_of_digitValue? second lowest, ih others]
    rfl

end Hex

namespace Value

variable {text : String} {bytes : Bytes}

/-- Bytes are shown as the text they are, unless that could be taken for a literal; those, and bytes that are no text, as
a literal with small digits. -/
inductive Shown (bytes : Bytes) (shown : String) : Prop where
  | text (own : Bytes.ofText shown = bytes) (plain : ¬IsLiteral shown.toList)
  | literal (taken : ∀ own, Bytes.ofText own = bytes → IsLiteral own.toList) (digits : List Char)
      (whole : shown.toList = '0' :: 'x' :: digits) (spells : Hex.Spells digits bytes)
      (lower : ∀ c ∈ digits, Hex.IsLower c)

theorem ofText_injective {first second : String} (same : Bytes.ofText first = Bytes.ofText second) : first = second := by
  have shown := Bytes.toText?_ofText first
  rw [same, Bytes.toText?_ofText] at shown
  exact (Option.some.inj shown).symm

theorem Shown.unique {first second : String} (shown : Shown bytes first) (shown' : Shown bytes second) :
    first = second := by
  cases shown with
  | text own plain =>
    cases shown' with
    | text own' plain' => exact ofText_injective (own.trans own'.symm)
    | literal taken' => exact absurd (taken' first own) plain
  | literal taken digits whole spells lower =>
    cases shown' with
    | text own' plain' => exact absurd (taken second own') plain'
    | literal taken' digits' whole' spells' lower' =>
      apply String.toList_inj.mp
      rw [whole, whole', Hex.eq_encode_of_spells spells lower, Hex.eq_encode_of_spells spells' lower']

theorem byteElements_ofBytes (bytes : Bytes) :
    byteElements (bytes.map fun byte => .uint .w8 byte.toNat) = bytes := by
  simp [byteElements, List.filterMap_map]

theorem display_ofBytes (bytes : Bytes) :
    (ofBytes bytes).display .bytes = String.ofList (renderBytes false bytes) := by
  rw [display, ofBytes, Ty.bytes, render_vector, if_pos rfl, byteElements_ofBytes]

theorem shown_renderBytes (bytes : Bytes) : Shown bytes (String.ofList (renderBytes false bytes)) := by
  have literal (taken : ∀ own, Bytes.ofText own = bytes → IsLiteral own.toList) :
      Shown bytes (String.ofList ('0' :: 'x' :: Hex.encode bytes)) :=
    .literal taken (Hex.encode bytes) String.toList_ofList (Hex.spells_encode bytes)
      fun c member => Hex.isLower_of_mem_encode member
  rw [renderBytes, if_neg Bool.false_ne_true]
  cases own : bytes.toText? with
  | none =>
    refine literal fun text same => ?_
    rw [Bytes.toText?_eq_some.mpr same] at own
    cases own
  | some text =>
    have same := Bytes.toText?_eq_some.mp own
    by_cases taken : IsLiteral text.toList
    · simp only [isHexLiteral_iff.mpr taken, if_true]
      -- The text of the bytes could be taken for a literal, so it is not what is shown.
      refine literal fun other same' => ?_
      rwa [ofText_injective (same'.trans same.symm)]
    · simp only [mt isHexLiteral_iff.mp taken]
      refine .text ?_ ?_
      · exact (congrArg Bytes.ofText String.ofList_toList).trans same
      · exact String.ofList_toList.symm ▸ taken

theorem display_ofBytes_iff {shown : String} : (ofBytes bytes).display .bytes = shown ↔ Shown bytes shown := by
  have own := shown_renderBytes bytes
  rw [display_ofBytes]
  constructor
  · rintro rfl
    exact own
  · exact own.unique

theorem parse_bytes_of_read (read : parseBytes false text.toList = .ok bytes) :
    parse .bytes text = .ok (ofBytes bytes) := by
  rw [parse, Ty.bytes, parseAt, if_pos rfl, read]

/-- Every text is read as a byte string: a literal as the bytes that it spells, any other as its own, which are shown as
it again. A literal is shown as the text of its bytes, or as a literal where they have none that could be read back. -/
theorem parse_bytes (text : String) : ∃ bytes, parse .bytes text = .ok (ofBytes bytes) ∧
    (¬IsLiteral text.toList → bytes = Bytes.ofText text ∧ (ofBytes bytes).display .bytes = text) ∧
    (∀ digits, text.toList = '0' :: 'x' :: digits → IsLiteral text.toList → Hex.Spells digits bytes) ∧
    ∀ shown, (ofBytes bytes).display .bytes = shown ↔ Shown bytes shown := by
  by_cases literal : IsLiteral text.toList
  · obtain ⟨digits, whole, even⟩ := id literal
    obtain ⟨bytes, spells⟩ := Hex.exists_spells.mpr even
    refine ⟨bytes, ?_, fun plain => absurd literal plain, fun digits' whole' _ => ?_, fun shown => display_ofBytes_iff⟩
    · exact parse_bytes_of_read (whole ▸ parseBytes_of_spells spells)
    · cases whole.symm.trans whole'
      exact spells
  · refine ⟨Bytes.ofText text, ?_, fun plain => ⟨rfl, display_ofBytes_iff.mpr (.text rfl plain)⟩,
      fun _ _ spelt => absurd spelt literal, fun shown => display_ofBytes_iff⟩
    refine parse_bytes_of_read ?_
    rw [parseBytes_of_not_isLiteral literal, String.ofList_toList]
    rfl

theorem parse_bytes_blank :
    (∃ bytes, parse .bytes " 0xab" = .ok (ofBytes bytes) ∧ bytes = Bytes.ofText " 0xab" ∧
      (ofBytes bytes).display .bytes = " 0xab") ∧
    ∃ bytes, parse .bytes "0x00fF" = .ok (ofBytes bytes) ∧ Hex.Spells "00fF".toList bytes := by
  have plain : ¬IsLiteral " 0xab".toList := mt isHexLiteral_iff.mpr (by decide +kernel)
  have literal : IsLiteral "0x00fF".toList := isHexLiteral_iff.mp (by decide +kernel)
  obtain ⟨bytes, read, own, -⟩ := parse_bytes " 0xab"
  obtain ⟨bytes', read', -, spelt, -⟩ := parse_bytes "0x00fF"
  exact ⟨⟨bytes, read, own plain⟩, bytes', read', spelt _ (by decide +kernel) literal⟩

/-- The text of these bytes is a literal itself, so they are not shown as it. -/
example : (ofBytes (Bytes.ofText "0xab")).display .bytes = "0x30786162" := by decide +kernel

end Value

end MoveBytecode
