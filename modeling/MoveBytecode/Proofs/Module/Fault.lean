import MoveBytecode.Proofs.Module.Acceptance
import MoveBytecode.Proofs.Module.RoundTrip
import MoveBytecode.Proofs.Reader.Fault
import MoveBytecode.Proofs.Tag

/-! What the errors of the module reader tell. Where everything around the tables is right, the fault is in a table, and
an error that gives an index is true of the entry at that index: so many well-formed entries stand before it, and behind
them no further one, but what the error says. -/

set_option autoImplicit false

namespace MoveBytecode

open Reader

namespace Grammar

/-- A type, and behind it a payload in full length that is none of the type. -/
def WrongPayload (bytes : Bytes) : Prop := ∃ marks tag leaf payload content, marks ≤ 32 ∧ Ty.leaf? tag = some leaf ∧
  Prefixed payload content ∧ ¬Payload (Ty.vector^[marks] leaf) payload ∧
  List.replicate marks 0x0A ++ tag :: content <+: bytes

def NoText (bytes : Bytes) : Prop :=
  ∃ content string, Prefixed content string ∧ (∀ text, content ≠ Bytes.ofText text) ∧ string <+: bytes

/-- A row that breaks off behind so many parts: something follows that starts with no part and has a fault. -/
def BreaksOff (part fault : Bytes → Prop) (index : Nat) (table : Bytes) : Prop :=
  ∃ (parts : List Bytes) (behind : Bytes), table = parts.flatten ++ behind ∧ parts.length = index ∧
    (∀ bytes ∈ parts, part bytes) ∧ (∀ bytes, bytes <+: behind → ¬part bytes) ∧ behind ≠ [] ∧ fault behind

namespace Sections

variable (sections : Sections) (entries : List Entry)

def Broken (kind : TableKind) (part fault : Bytes → Prop) (index : Nat) : Prop :=
  ∃ entry ∈ entries, entry.kind = kind ∧ BreaksOff part fault index (sections.slice entry)

/-- What an error says of the tables. One that is about the frame, or about bytes missing behind the end, can say nothing
true of them. -/
def Blames : DecodeError → Prop
  | .unsupportedConstantType index byte => sections.Broken entries .constantPool Constant (UnknownTag byte) index
  | .typeNestingTooDeep index => sections.Broken entries .constantPool Constant TooManyMarks index
  | .malformedConstant index _ => sections.Broken entries .constantPool Constant WrongPayload index
  | .invalidUtf8 index => sections.Broken entries .identifiers Identifier NoText index
  | .gap (.identifierOverrun index) => sections.Broken entries .identifiers Identifier (fun _ => True) index
  | .gap (.truncatedType index) | .gap (.constantOverrun index) =>
    sections.Broken entries .constantPool Constant (fun _ => True) index
  | .read (.malformedUleb128 _) => ∃ index, sections.Broken entries .identifiers Identifier (fun _ => True) index ∨
    sections.Broken entries .constantPool Constant (fun _ => True) index
  | .gap (.addressTable length) => ∃ entry ∈ entries, entry.kind = .addressIdentifiers ∧
    (sections.slice entry).length = length ∧ length % 32 ≠ 0
  | .read (.outOfBounds ..) | .badMagic _ | .unsupportedVersion _ | .unknownTableKind _ | .duplicateTable _
  | .gap (.misplaced ..) | .gap (.afterModule _) => False

end Sections

end Grammar

open Grammar

namespace Module

def UnreadIdentifier (index : Nat) : Fault DecodeError
  | .gap (.identifierOverrun other), _ => other = index
  | .read (.malformedUleb128 _), _ => True
  | .invalidUtf8 other, bytes => other = index ∧ NoText bytes
  | _, _ => False

def UnreadConstant (index : Nat) : Fault DecodeError
  | .gap (.truncatedType other), _ => other = index
  | .gap (.constantOverrun other), _ => other = index
  | .read (.malformedUleb128 _), _ => True
  | .unsupportedConstantType other byte, bytes => other = index ∧ UnknownTag byte bytes
  | .typeNestingTooDeep other, bytes => other = index ∧ TooManyMarks bytes
  | .malformedConstant other _, bytes => other = index ∧ WrongPayload bytes
  | _, _ => False

theorem fails_readIdentifier (index : Nat) : Fails (readIdentifier index) (UnreadIdentifier index) := by
  refine (((fails_any Reader.lengthPrefixed).mapError (overrun (.identifierOverrun index))).bind
    (reads_lengthPrefixed.mapError _) fun bytes => fails_ofOption (DecodeError.invalidUtf8 index) bytes.toText?).imp ?_
  intro error rest failed
  rcases failed with ⟨cause, _, same⟩ | ⟨content, front, back, split, ⟨small, taken⟩, same, unknown⟩
  · subst same
    cases cause with
    | outOfBounds => rfl
    | malformedUleb128 => trivial
  · subst split same
    refine ⟨rfl, content, front, prefixed_iff.mpr ⟨small, taken⟩, fun text same => ?_, back, rfl⟩
    rw [same, Bytes.toText?_ofText] at unknown
    cases unknown

theorem fails_readConstant (index : Nat) : Fails (readConstant index) (UnreadConstant index) := by
  refine (((Ty.fails_readWithin Ty.maxNesting).mapError _).bind (Ty.reads_read.mapError _) fun ty =>
    (((fails_any Reader.lengthPrefixed).mapError (overrun (.constantOverrun index))).bind
      (reads_lengthPrefixed.mapError _) fun payload =>
        (fails_ofExcept (DecodeError.malformedConstant index) (Value.ofPayload ty payload)).map (Constant.mk ty))).imp ?_
  intro error rest failed
  -- No type can be read, no payload in full length, or the payload is none of the type.
  rcases failed with ⟨cause, unread, same⟩ | ⟨ty, front, back, split, ⟨flat, taken⟩, ⟨cause, _, same⟩ |
    ⟨payload, front', back', split', ⟨small, taken'⟩, detail, refused, same⟩⟩
  · subst same
    cases cause with
    | truncated => rfl
    | tooDeep => exact ⟨rfl, unread⟩
    | unsupported byte => exact ⟨rfl, unread⟩
  · subst same
    cases cause with
    | outOfBounds => rfl
    | malformedUleb128 => trivial
  · obtain ⟨marks, tag, leaf, shown, whole⟩ := exists_vector_iterate ty
    obtain ⟨nesting, written⟩ := vector_iterate shown marks
    subst same whole
    have few : marks ≤ 32 := nesting ▸ flat
    have prefixed := prefixed_iff.mpr ⟨small, taken'⟩
    refine ⟨rfl, marks, tag, leaf, payload, front', few, shown, prefixed, ?_, back', ?_⟩
    · intro stands
      obtain ⟨value, readable, same⟩ := payload_iff.mp stands
      rw [Value.ofPayload_eq_ok.mpr ⟨readable, same⟩] at refused
      cases refused
    · rw [split, split', taken, written, List.append_assoc, List.append_assoc]
      rfl

theorem breaksOff_of_toEnd {α : Type} {entry : Nat → Reader DecodeError α} {form : Form α} {part : Bytes → Prop}
    {fault : Nat → Fault DecodeError} (written : ∀ bytes, part bytes ↔ ∃ value, form value bytes)
    (reads : ∀ index, Reads (entry index) form) (fails : ∀ index, Fails (entry index) (fault index)) {table : Bytes}
    {error : DecodeError} (failed : (toEnd entry).value table = .error error) :
    ∃ index, BreaksOff part (fault index error) index table := by
  have located := fails_toEnd reads fun index => (fails index).unread (reads index)
  obtain ⟨values, front, behind, split, stand, begun, faulty, unread⟩ := located.value failed
  obtain ⟨parts, enough, each, whole⟩ := (Form.exists_sequence form values.length front).mp ⟨values, rfl, stand⟩
  refine ⟨values.length, parts, behind, whole ▸ split, enough, ?_, ?_, begun, faulty⟩
  · intro bytes member
    exact (written bytes).mpr (each bytes member)
  · intro bytes begins stands
    obtain ⟨value, stands⟩ := (written bytes).mp stands
    exact unread value bytes begins stands

section
variable {sections : Sections} {entries : List Entry} {entry : Entry} {error : DecodeError}

theorem blames_of_decodeIdentifiers (member : entry ∈ entries) (isNames : entry.kind = .identifiers)
    (failed : decodeIdentifiers (sections.slice entry) = .error error) : sections.Blames entries error := by
  obtain ⟨index, parts, behind, split, count, each, last, begun, unread⟩ :=
    breaksOff_of_toEnd (fun _ => identifier_iff) reads_readIdentifier fails_readIdentifier failed
  have broken {fault : Bytes → Prop} (faulty : fault behind) :
      sections.Broken entries .identifiers Identifier fault index :=
    ⟨entry, member, isNames, parts, behind, split, count, each, last, begun, faulty⟩
  unfold UnreadIdentifier at unread
  split at unread
  · subst unread
    exact broken trivial
  · exact ⟨index, .inl (broken trivial)⟩
  · obtain ⟨same, noText⟩ := unread
    subst same
    exact broken noText
  · exact unread.elim

theorem blames_of_decodeConstants (member : entry ∈ entries) (isConstants : entry.kind = .constantPool)
    (failed : decodeConstants (sections.slice entry) = .error error) : sections.Blames entries error := by
  obtain ⟨index, parts, behind, split, count, each, last, begun, unread⟩ :=
    breaksOff_of_toEnd (fun _ => constant_iff) reads_readConstant fails_readConstant failed
  have broken {fault : Bytes → Prop} (faulty : fault behind) :
      sections.Broken entries .constantPool Grammar.Constant fault index :=
    ⟨entry, member, isConstants, parts, behind, split, count, each, last, begun, faulty⟩
  unfold UnreadConstant at unread
  split at unread
  · subst unread
    exact broken trivial
  · subst unread
    exact broken trivial
  · exact ⟨index, .inr (broken trivial)⟩
  · obtain ⟨same, unknown⟩ := unread
    subst same
    exact broken unknown
  · obtain ⟨same, deep⟩ := unread
    subst same
    exact broken deep
  · obtain ⟨same, wrong⟩ := unread
    subst same
    exact broken wrong
  · exact unread.elim

theorem blames_of_decodeAddresses (member : entry ∈ entries) (isAddresses : entry.kind = .addressIdentifiers)
    (failed : decodeAddresses (sections.slice entry) = .error error) : sections.Blames entries error := by
  have uneven : (sections.slice entry).length % 32 ≠ 0 := by
    intro even
    obtain ⟨addresses, read⟩ := exists_decodeAddresses.mpr even
    rw [failed] at read
    cases read
  unfold decodeAddresses at failed
  split at failed
  · cases failed
  · cases failed
    exact ⟨entry, member, isAddresses, rfl, uneven⟩

theorem blames_of_addTable {module : Module} (member : entry ∈ entries)
    (failed : module.addTable entry.kind (sections.slice entry) = .error error) : sections.Blames entries error := by
  rcases addTable_eq_error.mp failed with ⟨isNames, failed⟩ | ⟨isAddresses, failed⟩ | ⟨isConstants, failed⟩
  · exact blames_of_decodeIdentifiers member isNames failed
  · exact blames_of_decodeAddresses member isAddresses failed
  · exact blames_of_decodeConstants member isConstants failed

end

/-- Bytes with everything right around their tables are a module, or an error tells what is wrong in one of its tables,
and none asks for more bytes. -/
theorem decode_blames {sections : Sections} {entries : List Entry} (framed : sections.Frame entries)
    {error : DecodeError} (failed : decode sections.bytes = .error error) :
    (∀ needed offset remaining, error ≠ .read (.outOfBounds needed offset remaining)) ∧
      sections.Blames entries error := by
  obtain ⟨container, sound, sameEntries, sameSections⟩ := Container.exists_of_frame framed
  subst sameEntries sameSections
  have read : Container.ofBytes container.sections.bytes = .ok container := Container.ofBytes_eq_ok.mpr ⟨sound, rfl⟩
  rw [decode, read] at failed
  obtain ⟨entry, member, module, failed'⟩ := Steps.exists_of_foldlM_eq_error failed
  have blamed : container.sections.Blames container.entries error := blames_of_addTable member failed'
  refine ⟨fun needed offset remaining same => ?_, blamed⟩
  subst same
  exact blamed

def brokenPool : Container where
  header := coin.header
  entries := [⟨.constantPool, 0, 5⟩]
  area := [0x01, 1, 0, 0x0A, 0x0B]
  selfHandle := some 0

theorem decode_blames_brokenPool : decode brokenPool.sections.bytes = .error (.unsupportedConstantType 1 0x0B) ∧
    BreaksOff Grammar.Constant (UnknownTag 0x0B) 1 [0x01, 1, 0, 0x0A, 0x0B] := by
  have framed : Container.ofBytes brokenPool.sections.bytes = .ok brokenPool := by decide +kernel
  have failed : decode brokenPool.sections.bytes = .error (.unsupportedConstantType 1 0x0B) := by decide +kernel
  have frame := Container.frame_sections (Container.ofBytes_eq_ok.mp framed).1
  obtain ⟨_, entry, member, _, broken⟩ := decode_blames frame failed
  cases List.mem_singleton.mp member
  exact ⟨failed, broken⟩

end Module

end MoveBytecode
