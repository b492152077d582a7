import MoveBytecode.Proofs.Reader.Primitive
import MoveBytecode.Value

/-! Types and payloads are read from the one form they are written in. A value has a type when its numbers are in range
and the items of its vectors all have the element type; it can be written when its vectors have less than `2 ^ 32` items
as well. -/

set_option autoImplicit false

namespace MoveBytecode

open Reader

namespace Ty

@[simp] theorem encode_ne_nil (ty : Ty) : ty.encode ≠ [] := by
  cases ty with
  | uint width => cases width <;> exact List.cons_ne_nil _ _
  | bool | address | vector => exact List.cons_ne_nil _ _

theorem leaf?_eq_some {byte : UInt8} {ty : Ty} : leaf? byte = some ty ↔ ty.encode = [byte] := by
  constructor
  · intro shown
    unfold leaf? at shown
    split at shown <;> cases shown <;> rfl
  · intro alone
    cases ty with
    | bool => cases alone; rfl
    | uint width => cases width <;> cases alone <;> rfl
    | address => cases alone; rfl
    | vector element => exact absurd (List.cons.inj alone).2 element.encode_ne_nil

theorem nesting_of_leaf {byte : UInt8} {ty : Ty} (shown : leaf? byte = some ty) : ty.nesting = 0 := by
  unfold leaf? at shown
  split at shown <;> cases shown <;> rfl

theorem leaf_or_vector (ty : Ty) :
    (∃ byte, leaf? byte = some ty) ∨ ∃ element, ty = .vector element := by
  cases ty with
  | bool => exact .inl ⟨0x01, rfl⟩
  | uint width => cases width <;> exact .inl ⟨_, leaf?_eq_some.mpr rfl⟩
  | address => exact .inl ⟨0x05, rfl⟩
  | vector element => exact .inr ⟨element, rfl⟩

theorem reads_readWithin (levels : Nat) :
    Reads (readWithin levels) (Form.written (fun ty => ty.nesting ≤ levels) encode) := by
  induction levels with
  | zero =>
    -- Without a level left a vector mark is refused before its byte is looked up.
    apply ((reads_byte.mapError _).bind fun byte => (reads_ofOption _ _).unless).congr
    intro ty taken
    constructor
    · intro parts
      obtain ⟨byte, _, _, whole, ⟨_, front⟩, _, shown, back⟩ := parts
      refine ⟨Nat.le_of_eq (nesting_of_leaf shown), ?_⟩
      rw [whole, front, back, leaf?_eq_some.mp shown, List.append_nil]
    · intro stands
      obtain ⟨flat, whole⟩ := stands
      obtain ⟨byte, shown⟩ | ⟨element, rfl⟩ := leaf_or_vector ty
      · refine ⟨byte, [byte], [], ?_, ⟨trivial, rfl⟩, ?_, shown, rfl⟩
        · rw [whole, leaf?_eq_some.mp shown, List.append_nil]
        · rintro rfl
          cases shown
      · simp [nesting] at flat
  | succ levels ih =>
    -- A mark takes one level for the type behind it; any other byte is a leaf type by itself.
    apply ((reads_byte.mapError _).bind fun byte => Reads.ite (fun _ => ih.map Ty.vector)
      fun _ => reads_ofOption _ _).congr
    intro ty taken
    constructor
    · intro parts
      obtain ⟨byte, _, _, whole, ⟨_, front⟩, outcome⟩ := parts
      rcases outcome with ⟨mark, element, ⟨flat, back⟩, rfl⟩ | ⟨_, shown, back⟩
      · refine ⟨Nat.succ_le_succ flat, ?_⟩
        rw [whole, front, back, mark]
        rfl
      · refine ⟨Nat.le_trans (Nat.le_of_eq (nesting_of_leaf shown)) (Nat.zero_le _), ?_⟩
        rw [whole, front, back, leaf?_eq_some.mp shown, List.append_nil]
    · intro stands
      obtain ⟨flat, whole⟩ := stands
      obtain ⟨byte, shown⟩ | ⟨element, rfl⟩ := leaf_or_vector ty
      · refine ⟨byte, [byte], [], ?_, ⟨trivial, rfl⟩, .inr ⟨?_, shown, rfl⟩⟩
        · rw [whole, leaf?_eq_some.mp shown, List.append_nil]
        · rintro rfl
          cases shown
      · exact ⟨vectorMark, [vectorMark], element.encode, whole, ⟨trivial, rfl⟩,
          .inl ⟨rfl, element, ⟨Nat.le_of_succ_le_succ flat, rfl⟩, rfl⟩⟩

theorem reads_read : Reads read (Form.written (fun ty => ty.nesting ≤ maxNesting) encode) := reads_readWithin maxNesting

end Ty

namespace Value

def HasType : Ty → Value → Prop
  | .bool, .bool _ => True
  | .uint width, .uint width' value => width' = width ∧ value < 2 ^ width.bits
  | .address, .address _ => True
  | .vector element, .vector items => ∀ item ∈ items, HasType element item
  | _, _ => False

/-- Every vector in a value of the type has a count that its payload can hold. -/
def CountsFit : Ty → Value → Prop
  | .vector element, .vector items => items.length < 2 ^ 32 ∧ ∀ item ∈ items, CountsFit element item
  | _, _ => True

def decideHasType : (ty : Ty) → (value : Value) → Decidable (HasType ty value)
  | .bool, .bool _ => .isTrue trivial
  | .uint width, .uint width' value => inferInstanceAs (Decidable (width' = width ∧ value < 2 ^ width.bits))
  | .address, .address _ => .isTrue trivial
  | .vector element, .vector items =>
    have : DecidablePred (HasType element) := decideHasType element
    inferInstanceAs (Decidable (∀ item ∈ items, HasType element item))
  | .bool, .uint .. | .bool, .address _ | .bool, .vector _
  | .uint _, .bool _ | .uint _, .address _ | .uint _, .vector _
  | .address, .bool _ | .address, .uint .. | .address, .vector _
  | .vector _, .bool _ | .vector _, .uint .. | .vector _, .address _ => .isFalse id

instance (ty : Ty) (value : Value) : Decidable (HasType ty value) := decideHasType ty value

theorem payloads_eq_flatMap (items : List Value) : payloads items = items.flatMap payload := by
  induction items with
  | nil => rfl
  | cons first rest ih => rw [payloads, ih, List.flatMap_cons]

@[simp] theorem payload_ne_nil (value : Value) : value.payload ≠ [] := by
  intro empty
  have length := congrArg List.length empty
  cases value with
  | bool truth => cases length
  | uint width number =>
    rw [payload, LittleEndian.length_encode] at length
    cases width <;> cases length
  | address address =>
    rw [payload, address.length_eq] at length
    cases length
  | vector items =>
    rw [payload] at empty
    exact Uleb128.encode_ne_nil _ (List.append_eq_nil_iff.mp empty).1

/-- The items of a vector take at least one byte each, so a payload that is not too long has no count too large. -/
theorem countsFit_of_length {ty : Ty} {value : Value} (small : value.payload.length < 2 ^ 32) : CountsFit ty value := by
  induction ty generalizing value with
  | bool | uint _ | address => trivial
  | vector element ih =>
    cases value with
    | vector items =>
      rw [payload, payloads_eq_flatMap, List.length_append] at small
      have count : items.length ≤ _ := Bytes.count_le_flatMap payload_ne_nil
      refine ⟨by omega, fun item member => ih ?_⟩
      have length : item.payload.length ≤ _ := Bytes.length_le_flatMap member
      omega
    | bool _ | uint _ _ | address _ => trivial

theorem bits_power (width : Width) : 2 ^ width.bits = 256 ^ width.bytes := by
  rw [Width.bits, Nat.pow_mul]

def Readable (ty : Ty) (value : Value) : Prop := HasType ty value ∧ CountsFit ty value

section
variable {width : Width} {element : Ty} {value : Value} {items : List Value}

theorem readable_bool : Readable .bool value ↔ ∃ truth, value = .bool truth := by
  cases value <;> simp [Readable, HasType, CountsFit]

theorem readable_uint :
    Readable (.uint width) value ↔ ∃ number, number < 2 ^ width.bits ∧ value = .uint width number := by
  cases value <;> simp [Readable, HasType, CountsFit, and_comm, eq_comm]

theorem readable_address : Readable .address value ↔ ∃ address, value = .address address := by
  cases value <;> simp [Readable, HasType, CountsFit]

theorem readable_vector :
    Readable (.vector element) (.vector items) ↔ items.length < 2 ^ 32 ∧ ∀ item ∈ items, Readable element item := by
  simp only [Readable, HasType, CountsFit]
  constructor
  · intro given
    obtain ⟨typed, count, fits⟩ := given
    exact ⟨count, fun item member => ⟨typed item member, fits item member⟩⟩
  · intro given
    obtain ⟨count, each⟩ := given
    exact ⟨fun item member => (each item member).1, count, fun item member => (each item member).2⟩

theorem readable_vector_iff : Readable (.vector element) value ↔
    ∃ items, value = .vector items ∧ items.length < 2 ^ 32 ∧ ∀ item ∈ items, Readable element item := by
  cases value with
  | vector items => simp [readable_vector]
  | bool _ | uint _ _ | address _ => simp [Readable, HasType]

end

theorem reads_truth (byte : UInt8) :
    Reads (match byte with
      | 0 => return .bool false
      | 1 => return .bool true
      | byte => throw (.boolByte byte) : Reader PayloadError Value) fun value taken =>
      (∃ truth : Bool, value = .bool truth ∧ byte = if truth then 1 else 0) ∧ taken = [] := by
  split
  · exact (reads_pure _).congr fun value taken => by simp
  · exact (reads_pure _).congr fun value taken => by simp
  · rename_i zero one
    refine (reads_throw _).congr fun value taken => ⟨False.elim, ?_⟩
    intro given
    obtain ⟨⟨truth, _, shown⟩, _⟩ := given
    cases truth with
    | false => exact zero shown
    | true => exact one shown

theorem reads_bool : Reads (read .bool) (Form.written (Readable .bool) payload) := by
  apply ((reads_byte.mapError _).bind reads_truth).congr
  intro value taken
  simp only [Form.written, readable_bool]
  constructor
  · intro parts
    obtain ⟨byte, _, _, whole, ⟨_, front⟩, ⟨truth, made, shown⟩, back⟩ := parts
    subst made
    exact ⟨⟨truth, rfl⟩, by rw [whole, front, back, shown]; rfl⟩
  · intro stands
    obtain ⟨⟨truth, made⟩, whole⟩ := stands
    subst made
    exact ⟨_, [_], [], whole, ⟨trivial, rfl⟩, ⟨truth, rfl, rfl⟩, rfl⟩

theorem reads_uint (width : Width) : Reads (read (.uint width)) (Form.written (Readable (.uint width)) payload) := by
  apply (((reads_littleEndian width.bytes).mapError _).map (Value.uint width)).congr
  intro value taken
  simp only [Form.written, readable_uint, bits_power]
  constructor
  · intro stands
    obtain ⟨number, ⟨small, whole⟩, made⟩ := stands
    subst made
    exact ⟨⟨number, small, rfl⟩, whole⟩
  · intro stands
    obtain ⟨⟨number, small, made⟩, whole⟩ := stands
    subst made
    exact ⟨number, ⟨small, whole⟩, rfl⟩

theorem reads_address : Reads (read .address) (Form.written (Readable .address) payload) := by
  apply (((reads_block 32).mapError _).map fun bytes => Value.address ⟨bytes.val, bytes.property⟩).congr
  intro value taken
  simp only [Form.written, readable_address]
  constructor
  · intro stands
    obtain ⟨bytes, ⟨_, whole⟩, made⟩ := stands
    subst made
    exact ⟨⟨_, rfl⟩, whole⟩
  · intro stands
    obtain ⟨⟨address, made⟩, whole⟩ := stands
    subst made
    exact ⟨⟨address.bytes, address.length_eq⟩, ⟨trivial, whole⟩, rfl⟩

theorem reads_vector {element : Ty} (reads : Reads (read element) (Form.written (Readable element) payload)) :
    Reads (read (.vector element)) (Form.written (Readable (.vector element)) payload) := by
  apply ((reads_uleb32.mapError _).bind fun count => (reads_many reads count).map Value.vector).congr
  intro value taken
  simp only [Form.written, readable_vector_iff]
  constructor
  · intro parts
    obtain ⟨count, _, _, whole, ⟨small, front⟩, items, ⟨enough, stand⟩, made⟩ := parts
    -- The count is the number of items, so writing them gives the count that was read.
    obtain ⟨each, back⟩ := (Form.sequence_written _ _).mp stand
    subst made enough
    refine ⟨⟨items, rfl, small, each⟩, ?_⟩
    rw [whole, front, back, payload, payloads_eq_flatMap]
  · intro stands
    obtain ⟨⟨items, made, small, each⟩, whole⟩ := stands
    subst made
    rw [payload, payloads_eq_flatMap] at whole
    exact ⟨items.length, _, _, whole, ⟨small, rfl⟩, items, ⟨rfl, (Form.sequence_written _ _).mpr ⟨each, rfl⟩⟩, rfl⟩

theorem reads_read (ty : Ty) : Reads (read ty) (Form.written (Readable ty) payload) := by
  induction ty with
  | bool => exact reads_bool
  | uint width => exact reads_uint width
  | address => exact reads_address
  | vector element ih => exact reads_vector ih

theorem ofPayload_eq_ok {ty : Ty} {bytes : Bytes} {value : Value} :
    ofPayload ty bytes = .ok value ↔ (HasType ty value ∧ CountsFit ty value) ∧ bytes = value.payload := by
  have whole : Exhausts _ _ := (reads_read ty).bind_exhausts fun result => exhausts_return result PayloadError.unread
  rw [ofPayload, value_eq_ok_of_exhausts whole]
  constructor
  · intro stands
    obtain ⟨_, _, _, split, ⟨readable, front⟩, same, back⟩ := stands
    subst same
    exact ⟨readable, by rw [split, front, back, List.append_nil]⟩
  · intro stands
    obtain ⟨readable, split⟩ := stands
    exact ⟨value, bytes, [], (List.append_nil bytes).symm, ⟨readable, split⟩, rfl, rfl⟩

end Value

end MoveBytecode
