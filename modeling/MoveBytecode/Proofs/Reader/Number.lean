import MoveBytecode.Proofs.Reader.Extent
import MoveBytecode.Proofs.Reader.Fault

/-! What any bytes are as a number. Either a number stands there in its one form, or the bytes end before the number they
begin does, or they are malformed, and each reader of numbers tells which. -/

set_option autoImplicit false

namespace MoveBytecode

namespace Uleb128

theorem length_groups (more n : Nat) : (groups more n).length = groupCount more n := by
  induction more generalizing n with
  | zero => rfl
  | succ more ih =>
    rw [groups, groupCount]
    split
    · rfl
    · rw [List.length_cons, ih]

theorem length_encode (n : Nat) : (encode n).length = size n := length_groups n n

def Unfinished (bytes : Bytes) : Prop := bytes.length < 10 ∧ ∀ group ∈ bytes, 128 ≤ group.toNat

/-- Neither a number of 32 bits nor the beginning of any number. -/
def Malformed (bytes : Bytes) : Prop := ¬Unfinished bytes ∧ ∀ value < 2 ^ 32, ¬encode value <+: bytes

end Uleb128

open Uleb128 (Unfinished Malformed)

namespace Reader

def startAt (bytes : Bytes) (offset : Nat) : Cursor := ⟨offset, bytes.drop offset⟩

theorem groups_of_unfinished (first : Nat) {more : Nat} (leading : Bool) (offset : Nat) {rest : Bytes}
    (few : rest.length ≤ more) (marked : ∀ group ∈ rest, 128 ≤ group.toNat) :
    groups first more leading ⟨offset, rest⟩ =
      .error (.outOfBounds 1 (offset + rest.length) 0) ⟨offset + rest.length, []⟩ := by
  induction rest generalizing more leading offset with
  | nil =>
    have missing : byte ⟨offset, []⟩ = .error (.outOfBounds 1 offset 0) ⟨offset, []⟩ := rfl
    cases more <;> exact bind_of_error missing
  | cons group rest ih =>
    cases more with
    | zero => cases few
    | succ more =>
      obtain ⟨large, others⟩ := List.forall_mem_cons.mp marked
      have taken : byte ⟨offset, group :: rest⟩ = .ok group ⟨offset + 1, rest⟩ := rfl
      have behind := ih false (offset + 1) (Nat.le_of_succ_le_succ few) others
      rw [groups, bind_of_ok taken, if_neg (Nat.not_lt.mpr large), bind_of_error behind, List.length_cons,
        Nat.add_right_comm, Nat.add_assoc]

theorem fails_groups (first more : Nat) (leading : Bool) : Fails (groups first more leading) fun error rest =>
    error = .malformedUleb128 first ∨ rest.length ≤ more ∧ ∀ group ∈ rest, 128 ≤ group.toNat := by
  -- Bytes run out behind marked groups only, since any other group ends the number or breaks it.
  induction more generalizing leading with
  | zero =>
    have last (group : UInt8) : Fails (if group = 1 then pure 1 else throw (.malformedUleb128 first) :
        Reader ReadError Nat) fun error _ => error = .malformedUleb128 first :=
      ((fails_pure 1).ite (fails_throw _)).imp fun _ _ failed => failed.elim And.right And.right
    refine (fails_byte.bind reads_byte last).imp fun error rest failed => ?_
    rcases failed with rfl | ⟨_, _, _, _, _, malformed⟩
    · exact .inr ⟨Nat.le_refl 0, by simp⟩
    · exact .inl malformed
  | succ more ih =>
    have ends (group : UInt8) : Fails (if group = 0 ∧ leading = false then throw (.malformedUleb128 first)
        else pure group.toNat : Reader ReadError Nat) fun error _ => error = .malformedUleb128 first :=
      ((fails_throw _).ite (fails_pure _)).imp fun _ _ failed => failed.elim And.right And.right
    refine (fails_byte.bind reads_byte fun group => (ends group).ite ((ih false).map _)).imp fun error rest failed => ?_
    rcases failed with rfl | ⟨group, front, back, rfl, ⟨_, rfl⟩, ⟨_, malformed⟩ | ⟨large, behind⟩⟩
    · exact .inr ⟨Nat.zero_le _, by simp⟩
    · exact .inl malformed
    · refine behind.imp_right fun ⟨few, marked⟩ => ⟨Nat.succ_le_succ few, ?_⟩
      exact List.forall_mem_cons.mpr ⟨Nat.le_of_not_lt large, marked⟩

section
variable {cursor next : Cursor} {value : Nat} {error : ReadError}

theorem uleb64_eq_ok : uleb64 cursor = .ok value next ↔ value < 2 ^ 64 ∧
    cursor.rest = Uleb128.encode value ++ next.rest ∧ next.offset = cursor.offset + Uleb128.size value := by
  rw [reads_uleb64 cursor value next, ← Uleb128.length_encode]
  constructor
  · rintro ⟨taken, ⟨small, rfl⟩, stands⟩
    exact ⟨small, stands⟩
  · rintro ⟨small, stands⟩
    exact ⟨_, ⟨small, rfl⟩, stands⟩

theorem uleb64_of_unfinished (unfinished : Unfinished cursor.rest) : uleb64 cursor =
    .error (.outOfBounds 1 (cursor.offset + cursor.rest.length) 0) ⟨cursor.offset + cursor.rest.length, []⟩ :=
  groups_of_unfinished cursor.offset true cursor.offset (Nat.le_of_lt_succ unfinished.1) unfinished.2

theorem malformed_or_unfinished (failed : uleb64 cursor = .error error next) :
    error = .malformedUleb128 cursor.offset ∨ Unfinished cursor.rest :=
  (fails_groups cursor.offset 9 true cursor error next failed).imp_right fun ⟨few, marked⟩ =>
    ⟨Nat.lt_succ_of_le few, marked⟩

theorem exists_uleb64_eq_ok : (∃ value next, uleb64 cursor = .ok value next) ↔
    ∃ value < 2 ^ 64, Uleb128.encode value <+: cursor.rest := by
  constructor
  · rintro ⟨value, next, read⟩
    obtain ⟨small, split, -⟩ := uleb64_eq_ok.mp read
    exact ⟨value, small, next.rest, split.symm⟩
  · rintro ⟨value, small, behind, split⟩
    exact ⟨value, ⟨_, behind⟩, uleb64_eq_ok.mpr ⟨small, split.symm, rfl⟩⟩

theorem exists_uleb64_eq_error : (∃ next, uleb64 cursor = .error error next) ↔
    Unfinished cursor.rest ∧ error = .outOfBounds 1 (cursor.offset + cursor.rest.length) 0 ∨
    ¬Unfinished cursor.rest ∧ (∀ value < 2 ^ 64, ¬Uleb128.encode value <+: cursor.rest) ∧
      error = .malformedUleb128 cursor.offset := by
  -- Bytes that all ask for more run out; others have an end, and are a number or malformed.
  by_cases unfinished : Unfinished cursor.rest
  · rw [uleb64_of_unfinished unfinished]
    simp [unfinished, eq_comm]
  · constructor
    · rintro ⟨next, failed⟩
      refine .inr ⟨unfinished, fun value small begins => ?_, (malformed_or_unfinished failed).resolve_right unfinished⟩
      obtain ⟨_, _, read⟩ := exists_uleb64_eq_ok.mpr ⟨value, small, begins⟩
      rw [failed] at read
      cases read
    · rintro (⟨short, _⟩ | ⟨_, unwritten, rfl⟩)
      · exact absurd short unfinished
      · cases outcome : uleb64 cursor with
        | ok value next =>
          obtain ⟨number, small, begins⟩ := exists_uleb64_eq_ok.mp ⟨value, next, outcome⟩
          exact absurd begins (unwritten number small)
        | error found next =>
          rw [(malformed_or_unfinished outcome).resolve_right unfinished]
          exact ⟨next, rfl⟩

theorem uleb32_eq (cursor : Cursor) : uleb32 cursor = (uleb64 >>= fun number =>
    if number < 2 ^ 32 then pure number else throw (.malformedUleb128 cursor.offset)) cursor := rfl

theorem uleb32_eq_ok : uleb32 cursor = .ok value next ↔ value < 2 ^ 32 ∧ uleb64 cursor = .ok value next := by
  rw [uleb32_eq, bind_eq_ok]
  constructor
  · rintro ⟨number, middle, read, kept⟩
    split at kept
    · next small =>
      cases kept
      exact ⟨small, read⟩
    · cases kept
  · rintro ⟨small, read⟩
    exact ⟨value, next, read, by rw [if_pos small]; rfl⟩

theorem uleb32_eq_error : uleb32 cursor = .error error next ↔ uleb64 cursor = .error error next ∨
    ∃ value, 2 ^ 32 ≤ value ∧ uleb64 cursor = .ok value next ∧ error = .malformedUleb128 cursor.offset := by
  rw [uleb32_eq, bind_eq_error]
  refine or_congr_right ?_
  constructor
  · rintro ⟨number, middle, read, refused⟩
    split at refused
    · cases refused
    · next large =>
      cases refused
      exact ⟨number, Nat.le_of_not_lt large, read, rfl⟩
  · rintro ⟨number, large, read, rfl⟩
    exact ⟨number, next, read, by rw [if_neg (Nat.not_lt.mpr large)]; rfl⟩

theorem exists_uleb32_malformed {place : Nat} : (∃ next, uleb32 cursor = .error (.malformedUleb128 place) next) ↔
    Malformed cursor.rest ∧ place = cursor.offset := by
  constructor
  · rintro ⟨next, failed⟩
    rcases uleb32_eq_error.mp failed with failed | ⟨number, large, read, same⟩
    · rcases exists_uleb64_eq_error.mp ⟨next, failed⟩ with ⟨_, ⟨⟩⟩ | ⟨finished, unwritten, same⟩
      exact ⟨⟨finished, fun value small => unwritten value (by omega)⟩, ReadError.malformedUleb128.inj same⟩
    · refine ⟨⟨fun unfinished => ?_, fun value small begins => ?_⟩, ReadError.malformedUleb128.inj same⟩
      · rw [uleb64_of_unfinished unfinished] at read
        cases read
      · -- Only one number is read, and it is too large.
        obtain ⟨behind, split⟩ := begins
        have other : uleb64 cursor = .ok value ⟨cursor.offset + Uleb128.size value, behind⟩ :=
          uleb64_eq_ok.mpr ⟨by omega, split.symm, rfl⟩
        rw [other] at read
        cases read
        omega
  · rintro ⟨⟨finished, unwritten⟩, rfl⟩
    by_cases written : ∃ value < 2 ^ 64, Uleb128.encode value <+: cursor.rest
    · -- A number is there that 32 bits do not hold.
      obtain ⟨value, next, read⟩ := exists_uleb64_eq_ok.mpr written
      obtain ⟨_, split, _⟩ := uleb64_eq_ok.mp read
      have large : 2 ^ 32 ≤ value := Nat.le_of_not_lt fun small => unwritten value small ⟨next.rest, split.symm⟩
      exact ⟨next, uleb32_eq_error.mpr (.inr ⟨value, large, read, rfl⟩)⟩
    · have unread : ∀ value < 2 ^ 64, ¬Uleb128.encode value <+: cursor.rest :=
        fun value small begins => written ⟨value, small, begins⟩
      obtain ⟨next, failed⟩ := exists_uleb64_eq_error.mpr (.inr ⟨finished, unread, rfl⟩)
      exact ⟨next, uleb32_eq_error.mpr (.inl failed)⟩

end

theorem malformed_append {bytes : Bytes} (malformed : Malformed bytes) (more : Bytes) : Malformed (bytes ++ more) := by
  obtain ⟨finished, unwritten⟩ := malformed
  refine ⟨fun ⟨few, marked⟩ => finished ⟨?_, fun group inside => marked group (List.mem_append_left more inside)⟩,
    fun value small begins => ?_⟩
  · rw [List.length_append] at few
    omega
  · -- A number that begins in the longer bytes would end in the shorter ones or find them unfinished.
    rcases List.prefix_or_prefix_of_prefix begins (List.prefix_append bytes more) with inside | ⟨back, whole⟩
    · exact unwritten value small inside
    · have cut : back ≠ [] := by
        rintro rfl
        rw [List.append_nil] at whole
        exact unwritten value small (whole ▸ List.prefix_refl _)
      have read : uleb64 ⟨0, bytes ++ back⟩ = .ok value ⟨0 + Uleb128.size value, []⟩ :=
        uleb64_eq_ok.mpr ⟨by omega, by rw [whole, List.append_nil], rfl⟩
      obtain ⟨needed, place, remaining, next, failed, -⟩ := needsAll_uleb64 0 bytes back value _ cut read
      rcases exists_uleb64_eq_error.mp ⟨next, failed⟩ with ⟨unfinished, _⟩ | ⟨_, _, ⟨⟩⟩
      exact finished unfinished

theorem startAt_add (bytes : Bytes) (offset count : Nat) :
    startAt bytes (offset + count) = ⟨offset + count, (bytes.drop offset).drop count⟩ := by
  rw [startAt, List.drop_drop]

theorem reads_startAt_iff {ε α : Type} {reader : Reader ε α} {valid : α → Prop} {write : α → Bytes}
    (reads : Reads reader (Form.written valid write)) {bytes : Bytes} {offset : Nat} {value : α} {next : Cursor} :
    reader (startAt bytes offset) = .ok value next ↔ valid value ∧ ∃ count,
      (bytes.drop offset).take count = write value ∧ count = (write value).length ∧
      next = startAt bytes (offset + count) := by
  rw [reads]
  constructor
  · intro parts
    obtain ⟨taken, ⟨sound, rfl⟩, split, moved⟩ := parts
    change bytes.drop offset = _ at split
    change next.offset = offset + _ at moved
    refine ⟨sound, _, ?_, rfl, ?_⟩
    · rw [split, List.take_left]
    · rw [startAt_add, split, List.drop_left, ← moved]
  · intro stands
    obtain ⟨sound, count, taken, long, rfl⟩ := stands
    refine ⟨write value, ⟨sound, rfl⟩, ?_, by rw [← long]; rfl⟩
    rw [startAt_add, ← taken]
    exact (List.take_append_drop count _).symm

/-- At any place a number is read from the one form in which it is written, and only from that. Where none is written, the
bytes end before the number they begin does, or the place itself is given as malformed. A number that has to fit in 32 bits
is read as any other and then refused if it does not. -/
theorem uleb_iff (bytes : Bytes) (offset : Nat) :
    (∀ value next, uleb64 (startAt bytes offset) = .ok value next ↔ value < 2 ^ 64 ∧ ∃ count,
      (bytes.drop offset).take count = Uleb128.encode value ∧ count = Uleb128.size value ∧
      next = startAt bytes (offset + count)) ∧
    (∀ error, (∃ next, uleb64 (startAt bytes offset) = .error error next) ↔
      Unfinished (bytes.drop offset) ∧ error = .outOfBounds 1 (offset + (bytes.drop offset).length) 0 ∨
      ¬Unfinished (bytes.drop offset) ∧ (∀ value < 2 ^ 64, ¬Uleb128.encode value <+: bytes.drop offset) ∧
        error = .malformedUleb128 offset) ∧
    (∀ value next, uleb32 (startAt bytes offset) = .ok value next ↔
      value < 2 ^ 32 ∧ uleb64 (startAt bytes offset) = .ok value next) ∧
    ∀ error next, uleb32 (startAt bytes offset) = .error error next ↔
      uleb64 (startAt bytes offset) = .error error next ∨
      ∃ value, 2 ^ 32 ≤ value ∧ uleb64 (startAt bytes offset) = .ok value next ∧
        error = .malformedUleb128 offset := by
  refine ⟨fun value next => ?_, fun error => exists_uleb64_eq_error, fun value next => uleb32_eq_ok,
    fun error next => uleb32_eq_error⟩
  rw [uleb64_eq_ok]
  constructor
  · rintro ⟨small, split, moved⟩
    change bytes.drop offset = _ at split
    change next.offset = offset + _ at moved
    refine ⟨small, Uleb128.size value, ?_, rfl, ?_⟩
    · rw [split, ← Uleb128.length_encode, List.take_left]
    · rw [startAt_add, split, ← Uleb128.length_encode, List.drop_left, Uleb128.length_encode, ← moved]
  · rintro ⟨small, count, taken, rfl, rfl⟩
    rw [startAt_add, ← taken]
    exact ⟨small, (List.take_append_drop _ _).symm, rfl⟩

end Reader

end MoveBytecode
