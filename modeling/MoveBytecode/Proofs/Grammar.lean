import MoveBytecode.Proofs.Module.Tables
import MoveBytecode.Proofs.Tiles

/-! The module format as a grammar, which speaks of the bytes alone. Every part of it is the form in which the reader
for that part accepts it, so that the module reader accepts what the grammar describes and nothing else. -/

set_option autoImplicit false

namespace MoveBytecode.Grammar

/-- Groups of seven bits, the lowest first. Only a number of one group may end in zero. -/
inductive Number : Nat → Bytes → Prop where
  | last {group : UInt8} (small : group.toNat < 128) : Number group.toNat [group]
  | more {group : UInt8} {rest : Nat} {bytes : Bytes} (large : 128 ≤ group.toNat) (positive : rest ≠ 0)
      (follows : Number rest bytes) : Number (group.toNat - 128 + 128 * rest) (group :: bytes)

def Number32 (value : Nat) (bytes : Bytes) : Prop := value < 2 ^ 32 ∧ Number value bytes

/-- Bytes behind their number. -/
def Prefixed (content bytes : Bytes) : Prop := ∃ length, Number32 content.length length ∧ bytes = length ++ content

def Row (part : Bytes → Prop) (bytes : Bytes) : Prop :=
  ∃ parts : List Bytes, (∀ bytes ∈ parts, part bytes) ∧ bytes = parts.flatten

def Identifier (bytes : Bytes) : Prop := ∃ name, Prefixed (Bytes.ofText name) bytes

def Payload : Ty → Bytes → Prop
  | .bool, bytes => bytes = [0] ∨ bytes = [1]
  | .uint width, bytes => bytes.length = width.bytes
  | .address, bytes => bytes.length = 32
  | .vector element, bytes => ∃ items : List Bytes, ∃ count, Number32 items.length count ∧
      (∀ item ∈ items, Payload element item) ∧ bytes = count ++ items.flatten

/-- Up to 32 vector marks, the tag of a leaf type, and a payload of the type behind its length. -/
def Constant (bytes : Bytes) : Prop := ∃ marks tag leaf payload content, marks ≤ 32 ∧ Ty.leaf? tag = some leaf ∧
  Payload (Ty.vector^[marks] leaf) payload ∧ Prefixed payload content ∧
  bytes = List.replicate marks 0x0A ++ tag :: content

def Table : TableKind → Bytes → Prop
  | .identifiers, bytes => Row Identifier bytes
  | .addressIdentifiers, bytes => bytes.length % 32 = 0
  | .constantPool, bytes => Row Constant bytes
  | _, _ => True

def Listing (entry : Entry) (bytes : Bytes) : Prop := ∃ offset length, Number32 entry.offset offset ∧
  Number32 entry.length length ∧ bytes = entry.kind.byte :: offset ++ length

/-- The bytes of a module behind the magic ones. -/
structure Sections where
  word : Bytes
  count : Bytes
  directory : Bytes
  area : Bytes
  trailer : Bytes

namespace Sections

def bytes (sections : Sections) : Bytes :=
  [0xA1, 0x1C, 0xEB, 0x0B] ++ sections.word ++ sections.count ++ sections.directory ++ sections.area ++ sections.trailer

def version (sections : Sections) : Nat := LittleEndian.decode sections.word % 2 ^ 24

structure Describe (sections : Sections) (entries : List Entry) : Prop where
  word : sections.word.length = 4
  version : 1 ≤ sections.version ∧ sections.version ≤ 7
  count : Number32 entries.length sections.count
  directory : Form.sequence Listing entries sections.directory
  distinct : (entries.map Entry.kind).Nodup
  area : sections.area.length = (entries.map Entry.length).sum
  tiles : Tiles entries sections.area.length
  tables : ∀ entry ∈ entries, Table entry.kind ((sections.area.drop entry.offset).take entry.length)
  trailer : if 5 ≤ sections.version then ∃ handle, Number32 handle sections.trailer else sections.trailer = []

def slice (sections : Sections) (entry : Entry) : Bytes := (sections.area.drop entry.offset).take entry.length

/-- Everything around the tables is as it has to be, whatever stands in them. -/
structure Frame (sections : Sections) (entries : List Entry) : Prop where
  word : sections.word.length = 4
  version : 1 ≤ sections.version ∧ sections.version ≤ 7
  count : Number32 entries.length sections.count
  directory : Form.sequence Listing entries sections.directory
  distinct : (entries.map Entry.kind).Nodup
  area : sections.area.length = (entries.map Entry.length).sum
  tiles : Tiles entries sections.area.length
  trailer : if 5 ≤ sections.version then ∃ handle, Number32 handle sections.trailer else sections.trailer = []

theorem describe_iff {sections : Sections} {entries : List Entry} : sections.Describe entries ↔
    sections.Frame entries ∧ ∀ entry ∈ entries, Table entry.kind (sections.slice entry) := by
  constructor
  · intro described
    obtain ⟨word, version, count, directory, distinct, area, tiles, tables, trailer⟩ := described
    exact ⟨⟨word, version, count, directory, distinct, area, tiles, trailer⟩, tables⟩
  · intro parts
    obtain ⟨⟨word, version, count, directory, distinct, area, tiles, trailer⟩, tables⟩ := parts
    exact ⟨word, version, count, directory, distinct, area, tiles, tables, trailer⟩

end Sections

def IsModule (bytes : Bytes) : Prop :=
  ∃ sections : Sections, ∃ entries, sections.Describe entries ∧ bytes = sections.bytes

theorem number_iff {value : Nat} {bytes : Bytes} : Number value bytes ↔ bytes = Uleb128.encode value := by
  constructor
  · intro stands
    induction stands with
    | last small => rw [Uleb128.encode_last small]
    | more large positive follows ih => rw [Uleb128.encode_group large positive, ih]
  · intro written
    subst written
    -- The groups behind the first are those of a smaller number.
    induction value using Nat.strongRecOn with
    | ind value ih =>
      rcases Uleb128.group_cases value with ⟨group, small, rfl⟩ | ⟨group, rest, large, positive, smaller, same⟩
      · rw [Uleb128.encode_last small]
        exact .last small
      · rw [same, Uleb128.encode_group large positive]
        exact .more large positive (ih rest smaller)

theorem number32_iff {value : Nat} {bytes : Bytes} :
    Number32 value bytes ↔ value < 2 ^ 32 ∧ bytes = Uleb128.encode value := and_congr_right fun _ => number_iff

theorem prefixed_iff {content bytes : Bytes} :
    Prefixed content bytes ↔ content.length < 2 ^ 32 ∧ bytes = Uleb128.lengthPrefixed content := by
  simp only [Prefixed, number32_iff]
  constructor
  · intro stands
    obtain ⟨length, ⟨small, front⟩, whole⟩ := stands
    exact ⟨small, by rw [whole, front]; rfl⟩
  · intro stands
    obtain ⟨small, whole⟩ := stands
    exact ⟨_, ⟨small, rfl⟩, whole⟩

theorem identifier_iff {bytes : Bytes} :
    Identifier bytes ↔ ∃ name, (Bytes.ofText name).length < 2 ^ 32 ∧ bytes = Module.encodeName name := by
  simp only [Identifier, prefixed_iff]
  rfl

section
variable {bytes : Bytes} {width : Width} {element : Ty}

def Holds (ty : Ty) (bytes : Bytes) : Prop := ∃ value, Value.Readable ty value ∧ bytes = value.payload

theorem holds_bool : Holds .bool bytes ↔ bytes = [0] ∨ bytes = [1] := by
  simp only [Holds, Value.readable_bool]
  constructor
  · intro stands
    obtain ⟨_, ⟨truth, rfl⟩, whole⟩ := stands
    cases truth with
    | false => exact .inl whole
    | true => exact .inr whole
  · intro shown
    rcases shown with zero | one
    · exact ⟨_, ⟨false, rfl⟩, zero⟩
    · exact ⟨_, ⟨true, rfl⟩, one⟩

theorem holds_uint : Holds (.uint width) bytes ↔ bytes.length = width.bytes := by
  simp only [Holds, Value.readable_uint, Value.bits_power]
  constructor
  · intro stands
    obtain ⟨_, ⟨number, _, rfl⟩, whole⟩ := stands
    rw [whole]
    exact LittleEndian.length_encode _ _
  · intro length
    refine ⟨_, ⟨LittleEndian.decode bytes, length ▸ LittleEndian.decode_lt bytes, rfl⟩, ?_⟩
    rw [Value.payload, ← length, LittleEndian.encode_decode]

theorem holds_address : Holds .address bytes ↔ bytes.length = 32 := by
  simp only [Holds, Value.readable_address]
  constructor
  · intro stands
    obtain ⟨_, ⟨address, rfl⟩, whole⟩ := stands
    rw [whole]
    exact address.length_eq
  · intro length
    exact ⟨_, ⟨⟨bytes, length⟩, rfl⟩, rfl⟩

theorem holds_vector : Holds (.vector element) bytes ↔ ∃ items : List Bytes, items.length < 2 ^ 32 ∧
    (∀ item ∈ items, Holds element item) ∧ bytes = Uleb128.encode items.length ++ items.flatten := by
  have rows (count : Nat) (content : Bytes) :=
    Form.exists_sequence (Form.written (Value.Readable element) Value.payload) count content
  simp only [Holds, Value.readable_vector_iff]
  constructor
  · intro stands
    obtain ⟨_, ⟨values, rfl, small, readable⟩, whole⟩ := stands
    have stand := (Form.sequence_written values (values.flatMap Value.payload)).mpr ⟨readable, rfl⟩
    obtain ⟨items, enough, each, back⟩ := (rows _ _).mp ⟨values, rfl, stand⟩
    refine ⟨items, enough ▸ small, each, ?_⟩
    rw [whole, Value.payload, Value.payloads_eq_flatMap, back, enough]
  · intro stands
    obtain ⟨items, small, each, whole⟩ := stands
    -- Each part holds a value, so the row of parts holds as many values.
    obtain ⟨values, enough, stand⟩ := (rows items.length items.flatten).mpr ⟨items, rfl, each, rfl⟩
    obtain ⟨readable, back⟩ := (Form.sequence_written _ _).mp stand
    refine ⟨_, ⟨values, rfl, enough ▸ small, readable⟩, ?_⟩
    rw [whole, back, Value.payload, Value.payloads_eq_flatMap, enough]

/-- What the grammar allows for a type is the payload of a value of that type. -/
theorem payload_iff {ty : Ty} : Payload ty bytes ↔ Holds ty bytes := by
  induction ty generalizing bytes with
  | bool => exact holds_bool.symm
  | uint width => exact holds_uint.symm
  | address => exact holds_address.symm
  | vector element ih =>
    simp only [Payload, ih, number32_iff, holds_vector]
    constructor
    · intro parts
      obtain ⟨items, count, ⟨small, front⟩, each, whole⟩ := parts
      exact ⟨items, small, each, front ▸ whole⟩
    · intro parts
      obtain ⟨items, small, each, whole⟩ := parts
      exact ⟨items, _, ⟨small, rfl⟩, each, whole⟩

end

theorem vector_iterate {tag : UInt8} {leaf : Ty} (shown : Ty.leaf? tag = some leaf) (marks : Nat) :
    (Ty.vector^[marks] leaf).nesting = marks ∧
      (Ty.vector^[marks] leaf).encode = List.replicate marks Ty.vectorMark ++ [tag] := by
  induction marks with
  | zero => exact ⟨Ty.nesting_of_leaf shown, Ty.leaf?_eq_some.mp shown⟩
  | succ marks ih =>
    rw [Function.iterate_succ_apply', Ty.nesting, Ty.encode, ih.1, ih.2]
    exact ⟨rfl, rfl⟩

theorem exists_vector_iterate (ty : Ty) : ∃ marks tag leaf, Ty.leaf? tag = some leaf ∧ ty = Ty.vector^[marks] leaf := by
  induction ty with
  | bool => exact ⟨0, 0x01, .bool, rfl, rfl⟩
  | uint width => cases width <;> exact ⟨0, _, _, Ty.leaf?_eq_some.mpr rfl, rfl⟩
  | address => exact ⟨0, 0x05, .address, rfl, rfl⟩
  | vector element ih =>
    obtain ⟨marks, tag, leaf, shown, same⟩ := ih
    exact ⟨marks + 1, tag, leaf, shown, by rw [Function.iterate_succ_apply', same]⟩

theorem constant_iff {bytes : Bytes} :
    Constant bytes ↔ ∃ constant : MoveBytecode.Constant, constant.Readable ∧ bytes = constant.encode := by
  simp only [Constant, payload_iff, prefixed_iff]
  constructor
  · intro parts
    obtain ⟨marks, tag, leaf, payload, content, few, shown, ⟨value, ⟨typed, counts⟩, made⟩, ⟨small, back⟩,
      whole⟩ := parts
    obtain ⟨nesting, front⟩ := vector_iterate shown marks
    subst made
    refine ⟨⟨Ty.vector^[marks] leaf, value⟩, ⟨⟨nesting.le.trans few, typed⟩, counts, small⟩, ?_⟩
    rw [whole, back, MoveBytecode.Constant.encode, front, List.append_assoc]
    rfl
  · intro parts
    obtain ⟨⟨ty, value⟩, ⟨⟨few, typed⟩, counts, small⟩, whole⟩ := parts
    -- The type of a constant is taken apart into marks and the tag of a leaf type.
    obtain ⟨marks, tag, leaf, shown, same⟩ := exists_vector_iterate ty
    subst same
    obtain ⟨nesting, front⟩ := vector_iterate shown marks
    refine ⟨marks, tag, leaf, value.payload, _, nesting ▸ few, shown, ⟨value, ⟨typed, counts⟩, rfl⟩, ⟨small, rfl⟩, ?_⟩
    rw [whole, MoveBytecode.Constant.encode, front, List.append_assoc]
    rfl

theorem listing_iff {entry : Entry} {bytes : Bytes} :
    Listing entry bytes ↔ Form.written Entry.Fits Entry.encode entry bytes := by
  simp only [Listing, number32_iff]
  constructor
  · intro parts
    obtain ⟨offset, length, ⟨small, front⟩, ⟨small', back⟩, whole⟩ := parts
    exact ⟨⟨small, small'⟩, by rw [whole, front, back]; rfl⟩
  · intro stands
    obtain ⟨⟨small, small'⟩, whole⟩ := stands
    exact ⟨_, _, ⟨small, rfl⟩, ⟨small', rfl⟩, whole⟩

theorem addresses_iff {bytes : Bytes} :
    bytes.length % 32 = 0 ↔ ∃ addresses : List Address, bytes = addresses.flatMap Address.bytes := by
  constructor
  · intro whole
    -- One address is taken off the front at a time.
    induction count : bytes.length / 32 generalizing bytes with
    | zero => exact ⟨[], List.eq_nil_of_length_eq_zero (by omega)⟩
    | succ count ih =>
      have first : (bytes.take 32).length = 32 := by
        rw [List.length_take]
        omega
      obtain ⟨rest, back⟩ := @ih (bytes.drop 32) (by rw [List.length_drop]; omega) (by rw [List.length_drop]; omega)
      refine ⟨⟨bytes.take 32, first⟩ :: rest, ?_⟩
      rw [List.flatMap_cons, ← back, List.take_append_drop]
  · intro stands
    obtain ⟨addresses, whole⟩ := stands
    subst whole
    induction addresses with
    | nil => rfl
    | cons address rest ih =>
      rw [List.flatMap_cons, List.length_append, address.length_eq]
      omega

end MoveBytecode.Grammar
