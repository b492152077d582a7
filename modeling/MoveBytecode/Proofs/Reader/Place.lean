import MoveBytecode.Proofs.Reader.Number

/-! The places that errors give. A reader points at malformed numbers when one begins wherever it says so, counted from
where its bytes begin; every way of joining readers that point joins them to one that does. -/

set_option autoImplicit false

namespace MoveBytecode

open Uleb128 (Malformed)

def ReadError.number? : ReadError → Option Nat
  | .malformedUleb128 place => some place
  | .outOfBounds .. => none

namespace Reader

variable {ε ε' α β : Type} {number? : ε → Option Nat} {number?' : ε' → Option Nat}

/-- A number that the reader complains of begins in its bytes where it says, and cannot be read. -/
def Points (number? : ε → Option Nat) (reader : Reader ε α) : Prop :=
  ∀ cursor error next place, reader cursor = .error error next → number? error = some place →
    ∃ passed rest, cursor.rest = passed ++ rest ∧ place = cursor.offset + passed.length ∧ Malformed rest

section
variable {reader : Reader ε α} {follow : α → Reader ε β} {form : Form α}

theorem points_of_fails {fault : Fault ε} (fails : Fails reader fault)
    (other : ∀ error rest, fault error rest → number? error = none) : Points number? reader := by
  intro cursor error next place failed complains
  rw [other error cursor.rest (fails cursor error next failed)] at complains
  cases complains

theorem Points.bind (first : Points number? reader) (reads : Reads reader form)
    (second : ∀ value, Points number? (follow value)) : Points number? (reader >>= follow) := by
  intro cursor error next place failed complains
  rcases bind_eq_error.mp failed with early | ⟨value, middle, read, late⟩
  · exact first cursor error next place early complains
  · -- The second reader starts behind what the first one took, and counts on from there.
    obtain ⟨taken, _, split, moved⟩ := (reads cursor value middle).mp read
    obtain ⟨passed, rest, behind, here, malformed⟩ := second value middle error next place late complains
    refine ⟨taken ++ passed, rest, by rw [split, behind, List.append_assoc], ?_, malformed⟩
    rw [here, moved, List.length_append, Nat.add_assoc]

theorem points_pure (result : α) : Points number? (pure result : Reader ε α) :=
  points_of_fails (fails_pure result) fun _ _ impossible => impossible

theorem Points.map (points : Points number? reader) (convert : α → β) :
    Points number? (do return convert (← reader)) := by
  intro cursor error next place failed complains
  rcases bind_eq_error.mp failed with early | ⟨_, _, _, ⟨⟩⟩
  exact points cursor error next place early complains

theorem points_throw {error : ε} (other : number? error = none) : Points number? (throw error : Reader ε α) :=
  points_of_fails (fails_throw error) fun _ _ same => same ▸ other

theorem points_ofOption {error : ε} (other : number? error = none) (found : Option α) :
    Points number? (ofOption error found) :=
  points_of_fails (fails_ofOption error found) fun _ _ failed => failed.1 ▸ other

theorem points_ofExcept {convert : ε' → ε} {outcome : Except ε' α}
    (other : ∀ cause, outcome = .error cause → number? (convert cause) = none) :
    Points number? (ofExcept convert outcome) :=
  points_of_fails (fails_ofExcept convert outcome) fun _ _ ⟨cause, failed, same⟩ => same ▸ other cause failed

theorem Points.mapError (points : Points number? reader) {convert : ε → ε'}
    (kept : ∀ error place, number?' (convert error) = some place → number? error = some place) :
    Points number?' (reader.mapError convert) := by
  intro cursor error next place failed complains
  unfold Reader.mapError at failed
  cases outcome : reader cursor with
  | ok value middle =>
    rw [outcome] at failed
    cases failed
  | error cause middle =>
    rw [outcome] at failed
    cases failed
    exact points cursor cause next place outcome (kept cause place complains)

theorem Points.ite {condition : Prop} [Decidable condition] {yes no : Reader ε α} (positive : Points number? yes)
    (negative : Points number? no) : Points number? (if condition then yes else no) := by
  split
  · exact positive
  · exact negative

theorem Points.unless {condition : Prop} [Decidable condition] {error : ε} {follow : Unit → Reader ε α}
    (other : number? error = none) (points : Points number? (follow ())) :
    Points number? (if condition then throw error >>= follow else follow ()) :=
  .ite ((points_throw other).bind (reads_throw error) fun _ => points) points

theorem points_return (result : α) (error : Nat → ε) (other : ∀ count, number? (error count) = none) :
    Points number? (do
      let remaining := (← get).rest.length
      if remaining ≠ 0 then throw (error remaining)
      return result : Reader ε α) := by
  rintro ⟨offset, _ | ⟨first, rest⟩⟩ thrown next place failed complains
  · cases failed
  · cases failed
    rw [other] at complains
    cases complains

end

theorem points_byte : Points ReadError.number? byte := by
  rintro ⟨offset, _ | ⟨first, rest⟩⟩ error next place failed complains
  · cases failed
    cases complains
  · cases failed

theorem points_block (count : Nat) : Points ReadError.number? (block count) := by
  intro cursor error next place failed complains
  unfold block at failed
  split at failed
  · cases failed
  · cases failed
    cases complains

theorem points_bytes (count : Nat) : Points ReadError.number? (bytes count) :=
  (points_block count).map Subtype.val

theorem points_littleEndian (width : Nat) : Points ReadError.number? (littleEndian width) :=
  (points_bytes width).map LittleEndian.decode

theorem points_uleb32 : Points ReadError.number? uleb32 := by
  intro cursor error next place failed complains
  cases error with
  | outOfBounds => cases complains
  | malformedUleb128 found =>
    cases complains
    obtain ⟨malformed, here⟩ := exists_uleb32_malformed.mp ⟨next, failed⟩
    exact ⟨[], cursor.rest, rfl, here, malformed⟩

theorem points_lengthPrefixed : Points ReadError.number? lengthPrefixed :=
  points_uleb32.bind reads_uleb32 points_bytes

section
variable {entry : Nat → Reader ε α} {form : Form α}

theorem points_entries (points : ∀ index, Points number? (entry index)) (reads : ∀ index, Reads (entry index) form)
    (limit index : Nat) : Points number? (entries entry limit index) := by
  induction limit generalizing index with
  | zero => exact points_pure []
  | succ limit ih =>
    rintro ⟨offset, _ | ⟨first, rest⟩⟩ error next place failed complains
    · cases failed
    · have more := (points index).bind (reads index) fun first => (ih (index + 1)).map (List.cons first)
      exact more _ _ _ _ failed complains

theorem points_toEnd (points : ∀ index, Points number? (entry index)) (reads : ∀ index, Reads (entry index) form) :
    Points number? (toEnd entry) := by
  intro cursor
  exact points_entries points reads cursor.rest.length 0 cursor

end

/-- A number cannot be read there as one of 32 bits. -/
def MalformedAt (bytes : Bytes) (place : Nat) : Prop :=
  ∃ next, uleb32 (startAt bytes place) = .error (.malformedUleb128 place) next

theorem malformedAt_iff {bytes : Bytes} {place : Nat} : MalformedAt bytes place ↔ Malformed (bytes.drop place) := by
  rw [MalformedAt, exists_uleb32_malformed]
  exact and_iff_left rfl

/-- A malformed number stands as far behind the start of a table as the table does behind the start of the module. -/
theorem MalformedAt.within {table : Bytes} {place : Nat} (malformed : MalformedAt table place) (before behind : Bytes) :
    MalformedAt (before ++ table ++ behind) (before.length + place) := by
  rw [malformedAt_iff] at malformed ⊢
  have inside : place ≤ table.length := by
    by_contra beyond
    have none : table.drop place = [] := List.drop_eq_nil_of_le (Nat.le_of_not_le beyond)
    rw [none] at malformed
    exact malformed.1 ⟨by decide, nofun⟩
  rw [List.append_assoc, ← List.drop_drop, List.drop_left, List.drop_append_of_le_length inside]
  exact malformed_append malformed behind

theorem Points.value {reader : Reader ε α} (points : Points number? reader) {bytes : Bytes} {error : ε} {place : Nat}
    (failed : reader.value bytes = .error error) (complains : number? error = some place) :
    MalformedAt bytes place := by
  unfold Reader.value at failed
  split at failed
  · cases failed
  · next found next outcome =>
    cases failed
    obtain ⟨passed, rest, whole, here, malformed⟩ := points (start bytes) error next place outcome complains
    simp only [start, Nat.zero_add] at whole here
    rw [malformedAt_iff, whole, here, List.drop_left]
    exact malformed

end Reader

end MoveBytecode
