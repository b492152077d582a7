import MoveBytecode.Proofs.Payload
import MoveBytecode.Proofs.Reader.Number

/-! What any bytes are as a type. Behind the vector marks at their front stands the tag of a leaf type, or another byte,
or nothing, or there are more marks than a type may have; each of these is one outcome of reading a type. -/

set_option autoImplicit false

namespace MoveBytecode

open Reader

namespace Grammar

/-- The tags of types: those of the leaf types, and the vector mark. -/
def tags : List UInt8 := [0x01, 0x02, 0x03, 0x04, 0x05, 0x0A, 0x0D, 0x0E, 0x0F]

def UnknownTag (byte : UInt8) (bytes : Bytes) : Prop :=
  byte ∉ tags ∧ ∃ marks ≤ 32, List.replicate marks 0x0A ++ [byte] <+: bytes

def TooManyMarks (bytes : Bytes) : Prop := List.replicate 33 0x0A <+: bytes

def MarksAlone (bytes : Bytes) : Prop := ∃ marks ≤ 32, bytes = List.replicate marks 0x0A

end Grammar

open Grammar

namespace Ty

theorem not_mem_tags {byte : UInt8} (plain : byte ≠ vectorMark) (unknown : leaf? byte = none) : byte ∉ tags := by
  intro member
  fin_cases member
  all_goals first | exact plain rfl | cases unknown

theorem mem_tags_of_leaf {byte : UInt8} {ty : Ty} (shown : leaf? byte = some ty) : byte ∈ tags := by
  unfold leaf? at shown
  split at shown <;> cases shown <;> decide

theorem leaf?_of_not_mem_tags {byte : UInt8} (unknown : byte ∉ tags) : leaf? byte = none := by
  cases shown : leaf? byte with
  | none => rfl
  | some ty => exact absurd (mem_tags_of_leaf shown) unknown

/-- What stands where no type can be read. -/
def Unread (levels : Nat) : Fault TyError
  | .truncated, bytes => ∃ marks ≤ levels, bytes = List.replicate marks vectorMark
  | .tooDeep, bytes => List.replicate (levels + 1) vectorMark <+: bytes
  | .unsupported byte, bytes => byte ∉ tags ∧ ∃ marks ≤ levels, List.replicate marks vectorMark ++ [byte] <+: bytes

theorem Unread.mark {levels : Nat} {error : TyError} {bytes : Bytes} (unread : Unread levels error bytes) :
    Unread (levels + 1) error (vectorMark :: bytes) := by
  cases error with
  | truncated =>
    obtain ⟨marks, few, whole⟩ := unread
    exact ⟨marks + 1, Nat.succ_le_succ few, congrArg (List.cons vectorMark) whole⟩
  | tooDeep => exact List.prefix_cons_iff.mpr (.inr ⟨_, rfl, unread⟩)
  | unsupported byte =>
    obtain ⟨unknown, marks, few, begins⟩ := unread
    exact ⟨unknown, marks + 1, Nat.succ_le_succ few, List.prefix_cons_iff.mpr (.inr ⟨_, rfl, begins⟩)⟩

theorem fails_readWithin (levels : Nat) : Fails (readWithin levels) (Unread levels) := by
  induction levels with
  | zero =>
    refine ((fails_byte.mapError _).bind (reads_byte.mapError _) fun byte =>
      (fails_ofOption (TyError.unsupported byte) (leaf? byte)).unless).imp ?_
    intro error rest failed
    -- There is no byte, one mark too many, or a byte that is no tag.
    rcases failed with ⟨_, empty, same⟩ | ⟨byte, front, back, split, ⟨_, taken⟩, outcome⟩
    · subst same
      exact ⟨0, Nat.le_refl 0, empty⟩
    · subst split taken
      rcases outcome with ⟨mark, same⟩ | ⟨plain, same, unknown⟩
      · subst same mark
        exact ⟨back, rfl⟩
      · subst same
        exact ⟨not_mem_tags plain unknown, 0, Nat.le_refl 0, back, rfl⟩
  | succ levels ih =>
    refine ((fails_byte.mapError _).bind (reads_byte.mapError _) fun byte =>
      (ih.map Ty.vector).ite (fails_ofOption (TyError.unsupported byte) (leaf? byte))).imp ?_
    intro error rest failed
    -- Behind a mark the fault is that of one level less, with the mark before it.
    rcases failed with ⟨_, empty, same⟩ | ⟨byte, front, back, split, ⟨_, taken⟩, outcome⟩
    · subst same
      exact ⟨0, Nat.zero_le _, empty⟩
    · subst split taken
      rcases outcome with ⟨mark, unread⟩ | ⟨plain, same, unknown⟩
      · subst mark
        exact unread.mark
      · subst same
        exact ⟨not_mem_tags plain unknown, 0, Nat.zero_le _, back, rfl⟩

theorem readWithin_end (levels offset : Nat) : readWithin levels ⟨offset, []⟩ = .error .truncated ⟨offset, []⟩ := by
  cases levels <;> rfl

theorem readWithin_last_mark (offset : Nat) (rest : Bytes) :
    readWithin 0 ⟨offset, vectorMark :: rest⟩ = .error .tooDeep ⟨offset + 1, rest⟩ := rfl

theorem readWithin_unknown {byte : UInt8} (unknown : byte ∉ tags) (levels offset : Nat) (rest : Bytes) :
    readWithin levels ⟨offset, byte :: rest⟩ = .error (.unsupported byte) ⟨offset + 1, rest⟩ := by
  have plain : byte ≠ vectorMark := fun mark => unknown (mark ▸ by decide)
  have found : (Reader.byte.mapError fun _ => TyError.truncated) ⟨offset, byte :: rest⟩ =
      .ok byte ⟨offset + 1, rest⟩ := rfl
  cases levels with
  | zero | succ =>
    rw [readWithin, bind_of_ok found, if_neg plain, leaf?_of_not_mem_tags unknown]
    rfl

section
variable {levels marks offset : Nat} {rest : Bytes} {error : TyError} {next : Cursor}

theorem readWithin_mark (failed : readWithin levels ⟨offset + 1, rest⟩ = .error error next) :
    readWithin (levels + 1) ⟨offset, vectorMark :: rest⟩ = .error error next := by
  change (readWithin levels >>= fun element => pure (Ty.vector element)) ⟨offset + 1, rest⟩ = _
  exact bind_of_error failed

/-- Marks hand on the error that comes up behind them, each at the cost of one level. -/
theorem readWithin_marks (failed : readWithin levels ⟨offset + marks, rest⟩ = .error error next) :
    readWithin (levels + marks) ⟨offset, List.replicate marks vectorMark ++ rest⟩ = .error error next := by
  induction marks generalizing offset with
  | zero => exact failed
  | succ marks ih =>
    rw [Nat.add_comm marks, ← Nat.add_assoc] at failed
    exact readWithin_mark (ih failed)

end

theorem exists_readWithin_eq_error {levels : Nat} {cursor : Cursor} {error : TyError} :
    (∃ next, readWithin levels cursor = .error error next) ↔ Unread levels error cursor.rest := by
  constructor
  · intro failed
    obtain ⟨next, failed⟩ := failed
    exact fails_readWithin levels cursor error next failed
  · intro unread
    -- Each fault stands behind marks, which the reader passes one level at a time.
    obtain ⟨offset, rest⟩ := cursor
    cases error with
    | truncated =>
      obtain ⟨marks, few, whole⟩ := unread
      obtain ⟨more, rfl⟩ := Nat.exists_eq_add_of_le' few
      have failed := readWithin_marks (readWithin_end more (offset + marks))
      rw [List.append_nil, ← whole] at failed
      exact ⟨_, failed⟩
    | tooDeep =>
      obtain ⟨behind, split⟩ := unread
      rw [List.replicate_succ', List.append_assoc] at split
      have failed := readWithin_marks (readWithin_last_mark (offset + levels) behind)
      rw [Nat.zero_add, ← List.singleton_append, split] at failed
      exact ⟨_, failed⟩
    | unsupported byte =>
      obtain ⟨unknown, marks, few, behind, split⟩ := unread
      obtain ⟨more, rfl⟩ := Nat.exists_eq_add_of_le' few
      rw [List.append_assoc] at split
      have failed := readWithin_marks (readWithin_unknown unknown more (offset + marks) behind)
      rw [← List.singleton_append, split] at failed
      exact ⟨_, failed⟩

/-- At any place a type is read from the one form in which it is written, if it has at most 32 vector marks. Where none is
read, there are more marks than that, or a byte that is no tag stands behind them, or nothing does, and the error says
which. -/
theorem read_iff (bytes : Bytes) (offset : Nat) :
    (∀ ty next, read (startAt bytes offset) = .ok ty next ↔ ty.nesting ≤ 32 ∧ ∃ count,
      (bytes.drop offset).take count = ty.encode ∧ count = ty.encode.length ∧
      next = startAt bytes (offset + count)) ∧
    ((∃ next, read (startAt bytes offset) = .error .tooDeep next) ↔ TooManyMarks (bytes.drop offset)) ∧
    (∀ byte, (∃ next, read (startAt bytes offset) = .error (.unsupported byte) next) ↔
      UnknownTag byte (bytes.drop offset)) ∧
    ((∃ next, read (startAt bytes offset) = .error .truncated next) ↔ MarksAlone (bytes.drop offset)) := by
  refine ⟨fun ty next => ?_, ?_, fun byte => ?_, ?_⟩
  · exact reads_startAt_iff reads_read
  · exact exists_readWithin_eq_error
  · exact exists_readWithin_eq_error
  · exact exists_readWithin_eq_error

-- The last level is spent on the 32nd mark, and the byte behind it is still read.
example : read.value (List.replicate 32 vectorMark ++ [0x0C]) = .error (.unsupported 0x0C) := by decide

end Ty

end MoveBytecode
