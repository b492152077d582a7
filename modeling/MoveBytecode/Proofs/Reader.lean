import Mathlib
import MoveBytecode.Cursor

/-! What readers accept. A form says in which bytes a value may be written. A reader reads a form when it has a result
exactly where one is written, takes those bytes and leaves the others; every way of joining readers joins their
forms. -/

set_option autoImplicit false

namespace MoveBytecode

abbrev Form (α : Type) := α → Bytes → Prop

namespace Form

variable {α : Type}

/-- The form that has one way of writing each of its values. -/
def written (valid : α → Prop) (write : α → Bytes) : Form α := fun value taken => valid value ∧ taken = write value

def sequence (form : Form α) : Form (List α)
  | [], taken => taken = []
  | first :: rest, taken => ∃ front back, taken = front ++ back ∧ form first front ∧ sequence form rest back

theorem sequence_written {valid : α → Prop} {write : α → Bytes} (values : List α) (taken : Bytes) :
    sequence (written valid write) values taken ↔ (∀ value ∈ values, valid value) ∧ taken = values.flatMap write := by
  induction values generalizing taken with
  | nil => simp [sequence]
  | cons first rest ih =>
    simp only [sequence, ih, written, List.forall_mem_cons, List.flatMap_cons]
    constructor
    · intro parts
      obtain ⟨front, back, rfl, ⟨head, rfl⟩, tail, rfl⟩ := parts
      exact ⟨⟨head, tail⟩, rfl⟩
    · intro stands
      obtain ⟨⟨head, tail⟩, rfl⟩ := stands
      exact ⟨_, _, rfl, ⟨head, rfl⟩, tail, rfl⟩

theorem sequence_nil {form : Form α} (nonempty : ∀ value, ¬form value []) (values : List α) :
    sequence form values [] ↔ values = [] := by
  cases values with
  | nil => simp [sequence]
  | cons first rest =>
    constructor
    · intro parts
      obtain ⟨front, back, whole, head, -⟩ := parts
      cases (List.append_eq_nil_iff.mp whole.symm).1
      exact absurd head (nonempty first)
    · intro read
      cases read

/-- So many values stand in the bytes exactly when the bytes are a row of so many parts with one value in each. -/
theorem exists_sequence (form : Form α) (count : Nat) (taken : Bytes) :
    (∃ values, values.length = count ∧ sequence form values taken) ↔
      ∃ parts : List Bytes, parts.length = count ∧ (∀ part ∈ parts, ∃ value, form value part) ∧
        taken = parts.flatten := by
  constructor
  · intro given
    obtain ⟨values, enough, stand⟩ := given
    induction values generalizing count taken with
    | nil => exact ⟨[], enough, by simp, stand⟩
    | cons first rest ih =>
      obtain ⟨front, back, whole, head, tail⟩ := stand
      obtain ⟨parts, same, each, split⟩ := ih rest.length back rfl tail
      refine ⟨front :: parts, ?_, List.forall_mem_cons.mpr ⟨⟨first, head⟩, each⟩, ?_⟩
      · rw [← enough, List.length_cons, List.length_cons, same]
      · rw [whole, split, List.flatten_cons]
  · intro stands
    obtain ⟨parts, enough, each, whole⟩ := stands
    induction parts generalizing count taken with
    | nil => exact ⟨[], enough, whole⟩
    | cons front parts ih =>
      obtain ⟨⟨first, head⟩, tail⟩ := List.forall_mem_cons.mp each
      obtain ⟨rest, same, stand⟩ := ih parts.length parts.flatten rfl tail rfl
      refine ⟨first :: rest, ?_, front, parts.flatten, whole, head, stand⟩
      rw [← enough, List.length_cons, List.length_cons, same]

theorem exists_written {valid : α → Prop} {write : α → Bytes} (taken : Bytes) :
    (∃ values : List α, (∀ value ∈ values, valid value) ∧ taken = values.flatMap write) ↔
      ∃ parts : List Bytes, (∀ part ∈ parts, ∃ value, valid value ∧ part = write value) ∧ taken = parts.flatten := by
  simp only [← sequence_written]
  constructor
  · intro given
    obtain ⟨values, stand⟩ := given
    obtain ⟨parts, _, each, whole⟩ := (exists_sequence _ values.length taken).mp ⟨values, rfl, stand⟩
    exact ⟨parts, each, whole⟩
  · intro stands
    obtain ⟨parts, each, whole⟩ := stands
    obtain ⟨values, _, stand⟩ := (exists_sequence _ parts.length taken).mpr ⟨parts, rfl, each, whole⟩
    exact ⟨values, stand⟩

end Form

namespace Reader

variable {ε ε' α β : Type}

def Reads (reader : Reader ε α) (form : Form α) : Prop :=
  ∀ cursor value next, reader cursor = .ok value next ↔
    ∃ taken, form value taken ∧ cursor.rest = taken ++ next.rest ∧ next.offset = cursor.offset + taken.length

/-- The reader has a result where all the bytes there are stand for it. -/
def Exhausts (reader : Reader ε α) (form : Form α) : Prop :=
  ∀ cursor value next, reader cursor = .ok value next ↔
    form value cursor.rest ∧ next = ⟨cursor.offset + cursor.rest.length, []⟩

theorem Reads.congr {reader : Reader ε α} {form form' : Form α} (reads : Reads reader form)
    (same : ∀ value taken, form value taken ↔ form' value taken) : Reads reader form' := by
  intro cursor value next
  simp only [reads cursor value next, same]

theorem Exhausts.congr {reader : Reader ε α} {form form' : Form α} (reads : Exhausts reader form)
    (same : ∀ value taken, form value taken ↔ form' value taken) : Exhausts reader form' := by
  intro cursor value next
  rw [reads cursor value next, same]

theorem reads_pure (result : α) : Reads (pure result : Reader ε α) fun value taken => value = result ∧ taken = [] := by
  intro cursor value next
  constructor
  · intro read
    cases read
    exact ⟨[], ⟨rfl, rfl⟩, rfl, rfl⟩
  · intro parts
    obtain ⟨_, ⟨rfl, rfl⟩, rest, offset⟩ := parts
    obtain ⟨_, _⟩ := cursor
    obtain ⟨_, _⟩ := next
    cases rest
    cases offset
    rfl

theorem reads_throw (error : ε) : Reads (throw error : Reader ε α) fun _ _ => False := by
  intro cursor value next
  constructor
  · intro read
    cases read
  · intro stands
    obtain ⟨_, ⟨⟩, _⟩ := stands

theorem reads_ofOption (error : ε) (found : Option α) :
    Reads (ofOption error found) fun value taken => found = some value ∧ taken = [] := by
  cases found with
  | none => exact (reads_throw error).congr fun value taken => by simp
  | some result => exact (reads_pure result).congr fun value taken => by simp [eq_comm]

theorem reads_ofExcept (convert : ε → ε') (outcome : Except ε α) :
    Reads (ofExcept convert outcome) fun value taken => outcome = .ok value ∧ taken = [] := by
  cases outcome with
  | error error => exact (reads_throw _).congr fun value taken => by simp
  | ok result => exact (reads_pure result).congr fun value taken => by simp [eq_comm]

theorem bind_eq_ok {reader : Reader ε α} {follow : α → Reader ε β} {cursor next : Cursor} {result : β} :
    (reader >>= follow) cursor = .ok result next ↔
      ∃ value middle, reader cursor = .ok value middle ∧ follow value middle = .ok result next := by
  change EStateM.bind reader follow cursor = _ ↔ _
  unfold EStateM.bind
  cases reader cursor with
  | ok value middle => simp
  | error error middle => simp

theorem bind_of_ok {reader : Reader ε α} {follow : α → Reader ε β} {cursor middle : Cursor} {value : α}
    (read : reader cursor = .ok value middle) : (reader >>= follow) cursor = follow value middle := by
  change EStateM.bind reader follow cursor = _
  rw [EStateM.bind, read]

theorem bind_of_error {reader : Reader ε α} {follow : α → Reader ε β} {cursor next : Cursor} {error : ε}
    (failed : reader cursor = .error error next) : (reader >>= follow) cursor = .error error next := by
  change EStateM.bind reader follow cursor = _
  rw [EStateM.bind, failed]

theorem Reads.bind {reader : Reader ε α} {follow : α → Reader ε β} {form : Form α} {forms : α → Form β}
    (first : Reads reader form) (second : ∀ value, Reads (follow value) (forms value)) :
    Reads (reader >>= follow) fun result taken =>
      ∃ value front back, taken = front ++ back ∧ form value front ∧ forms value result back := by
  intro cursor result next
  simp only [bind_eq_ok, first cursor, second _ _ result next]
  constructor
  · intro parts
    obtain ⟨value, middle, ⟨front, stands, rest, offset⟩, back, follows, rest', offset'⟩ := parts
    refine ⟨front ++ back, ⟨value, front, back, rfl, stands, follows⟩, ?_, ?_⟩
    · rw [rest, rest', List.append_assoc]
    · rw [offset', offset, List.length_append, Nat.add_assoc]
  · intro parts
    obtain ⟨_, ⟨value, front, back, rfl, stands, follows⟩, rest, offset⟩ := parts
    refine ⟨value, ⟨cursor.offset + front.length, back ++ next.rest⟩, ⟨front, stands, ?_, rfl⟩, back, follows, rfl, ?_⟩
    · rw [rest, List.append_assoc]
    · rw [offset, List.length_append, Nat.add_assoc]

theorem Reads.bind_exhausts {reader : Reader ε α} {follow : α → Reader ε β} {form : Form α} {forms : α → Form β}
    (first : Reads reader form) (second : ∀ value, Exhausts (follow value) (forms value)) :
    Exhausts (reader >>= follow) fun result taken =>
      ∃ value front back, taken = front ++ back ∧ form value front ∧ forms value result back := by
  intro cursor result next
  simp only [bind_eq_ok, first cursor, second _ _ result next]
  constructor
  · intro parts
    obtain ⟨value, ⟨_, back⟩, ⟨front, stands, rest, rfl⟩, follows, rfl⟩ := parts
    refine ⟨⟨value, front, back, rest, stands, follows⟩, ?_⟩
    rw [rest, List.length_append, Nat.add_assoc]
  · intro parts
    obtain ⟨⟨value, front, back, rest, stands, follows⟩, rfl⟩ := parts
    refine ⟨value, ⟨cursor.offset + front.length, back⟩, ⟨front, stands, rest, rfl⟩, follows, ?_⟩
    rw [rest, List.length_append, Nat.add_assoc]

theorem Reads.map {reader : Reader ε α} {form : Form α} (reads : Reads reader form) (convert : α → β) :
    Reads (do return convert (← reader)) fun result taken => ∃ value, form value taken ∧ result = convert value := by
  apply (reads.bind fun value => reads_pure (convert value)).congr
  intro result taken
  constructor
  · intro parts
    obtain ⟨value, front, _, rfl, stands, rfl, rfl⟩ := parts
    exact ⟨value, by rwa [List.append_nil], rfl⟩
  · intro written
    obtain ⟨value, stands, rfl⟩ := written
    exact ⟨value, taken, [], (List.append_nil taken).symm, stands, rfl, rfl⟩

theorem Reads.mapError {reader : Reader ε α} {form : Form α} (reads : Reads reader form) (convert : ε → ε') :
    Reads (reader.mapError convert) form := by
  intro cursor value next
  rw [← reads cursor value next]
  unfold Reader.mapError
  cases reader cursor with
  | ok result middle => simp
  | error error middle => simp

theorem Reads.ite {condition : Prop} [Decidable condition] {yes no : Reader ε α} {form form' : Form α}
    (positive : condition → Reads yes form) (negative : ¬condition → Reads no form') :
    Reads (if condition then yes else no) fun value taken =>
      (condition ∧ form value taken) ∨ (¬condition ∧ form' value taken) := by
  by_cases holds : condition
  · rw [if_pos holds]
    exact (positive holds).congr fun value taken => by simp [holds]
  · rw [if_neg holds]
    exact (negative holds).congr fun value taken => by simp [holds]

theorem Reads.unless {condition : Prop} [Decidable condition] {error : ε} {follow : Unit → Reader ε α} {form : Form α}
    (reads : Reads (follow ()) form) :
    Reads (if condition then throw error >>= follow else follow ()) fun value taken =>
      ¬condition ∧ form value taken := by
  by_cases holds : condition
  · rw [if_pos holds]
    exact (reads_throw error).congr fun value taken => by simp [holds]
  · rw [if_neg holds]
    exact reads.congr fun value taken => by simp [holds]

theorem Exhausts.ite_bind {condition : Prop} [Decidable condition] {yes no : Reader ε α} {follow : α → Reader ε β}
    {form : Form β} (reads : Exhausts ((if condition then yes else no) >>= follow) form) :
    Exhausts (if condition then yes >>= follow else no >>= follow) form := by
  by_cases holds : condition
  · rwa [if_pos holds] at reads ⊢
  · rwa [if_neg holds] at reads ⊢

/-- What a reader knows of its place changes errors only. -/
theorem reads_get_bind {follow : Cursor → Reader ε α} {form : Form α}
    (reads : ∀ place, Reads (follow place) form) : Reads (do follow (← get)) form := by
  intro cursor value next
  exact reads cursor cursor value next

-- The form alone decides the result, since the reader leaves its cursor at the end of the bytes in any case.
theorem value_eq_ok_of_exhausts {reader : Reader ε α} {form : Form α} (reads : Exhausts reader form) {bytes : Bytes}
    {result : α} : reader.value bytes = .ok result ↔ form result bytes := by
  have whole := reads (start bytes)
  unfold value
  cases outcome : reader (start bytes) with
  | ok value next =>
    have stands := (whole value next).mp outcome
    constructor
    · intro read
      cases read
      exact stands.1
    · intro other
      have same := (whole result _).mpr ⟨other, rfl⟩
      rw [outcome] at same
      cases same
      rfl
  | error error next =>
    constructor
    · intro read
      cases read
    · intro other
      have same := (whole result _).mpr ⟨other, rfl⟩
      rw [outcome] at same
      cases same

theorem value_eq_ok_of_reads {reader : Reader ε α} {form : Form α} (reads : Reads reader form) {bytes : Bytes}
    {result : α} : reader.value bytes = .ok result ↔ ∃ taken rest, form result taken ∧ bytes = taken ++ rest := by
  have whole := reads (start bytes)
  unfold value
  constructor
  · intro read
    cases outcome : reader (start bytes) with
    | ok value next =>
      rw [outcome] at read
      cases read
      obtain ⟨taken, stands, split, _⟩ := (whole result next).mp outcome
      exact ⟨taken, next.rest, stands, split⟩
    | error error next =>
      rw [outcome] at read
      cases read
  · rintro ⟨taken, rest, stands, split⟩
    rw [(whole result ⟨taken.length, rest⟩).mpr ⟨taken, stands, split, (Nat.zero_add _).symm⟩]

/-- The last step of a reader that refuses to leave anything unread. -/
theorem exhausts_return (result : α) (error : Nat → ε) :
    Exhausts (do
      let remaining := (← get).rest.length
      if remaining ≠ 0 then throw (error remaining)
      return result : Reader ε α) fun value taken => value = result ∧ taken = [] := by
  rintro ⟨offset, rest⟩ value next
  -- What is left is counted before the check, and nothing is taken.
  cases rest with
  | nil =>
    constructor
    · intro read
      cases read
      exact ⟨⟨rfl, rfl⟩, rfl⟩
    · intro stands
      obtain ⟨⟨rfl, -⟩, rfl⟩ := stands
      rfl
  | cons first rest =>
    constructor
    · intro read
      cases read
    · intro stands
      obtain ⟨⟨-, ⟨⟩⟩, -⟩ := stands

end Reader

end MoveBytecode
