import MoveBytecode.Proofs.Reader.Primitive

/-! What readers fail on. A fault tells of each error what stands in the bytes where the reader began; every way of
joining readers joins their faults. A row of entries fails on the first one that cannot be read. -/

set_option autoImplicit false

namespace MoveBytecode

abbrev Fault (ε : Type) := ε → Bytes → Prop

namespace Reader

variable {ε ε' α β : Type}

/-- Wherever the reader fails, the bytes from there on have the fault of its error. -/
def Fails (reader : Reader ε α) (fault : Fault ε) : Prop :=
  ∀ cursor error next, reader cursor = .error error next → fault error cursor.rest

section
variable {reader : Reader ε α} {follow : α → Reader ε β} {form : Form α} {fault fault' : Fault ε}

theorem Fails.imp (fails : Fails reader fault) (weaker : ∀ error rest, fault error rest → fault' error rest) :
    Fails reader fault' := by
  intro cursor error next failed
  exact weaker error cursor.rest (fails cursor error next failed)

theorem Fails.unread (fails : Fails reader fault) (reads : Reads reader form) :
    Fails reader fun error rest => fault error rest ∧ ∀ value front, front <+: rest → ¬form value front := by
  intro cursor error next failed
  refine ⟨fails cursor error next failed, fun value front begins stands => ?_⟩
  obtain ⟨back, whole⟩ := begins
  have read := (reads cursor value ⟨cursor.offset + front.length, back⟩).mpr ⟨front, stands, whole.symm, rfl⟩
  rw [failed] at read
  cases read

theorem fails_any (reader : Reader ε α) : Fails reader fun _ _ => True := fun _ _ _ _ => trivial

theorem fails_pure (result : α) : Fails (pure result : Reader ε α) fault := by
  intro cursor error next failed
  cases failed

theorem fails_throw (error : ε) : Fails (throw error : Reader ε α) fun found _ => found = error := by
  intro cursor found next failed
  cases failed
  rfl

theorem fails_ofOption (error : ε) (found : Option α) :
    Fails (ofOption error found) fun thrown _ => thrown = error ∧ found = none := by
  cases found with
  | none => exact (fails_throw error).imp fun thrown rest same => ⟨same, rfl⟩
  | some result => exact fails_pure result

theorem fails_ofExcept (convert : ε → ε') (outcome : Except ε α) :
    Fails (ofExcept convert outcome) fun thrown _ => ∃ cause, outcome = .error cause ∧ thrown = convert cause := by
  cases outcome with
  | error cause => exact (fails_throw (convert cause)).imp fun thrown rest same => ⟨cause, rfl, same⟩
  | ok result => exact fails_pure result

theorem bind_eq_error {cursor next : Cursor} {error : ε} : (reader >>= follow) cursor = .error error next ↔
    reader cursor = .error error next ∨
      ∃ value middle, reader cursor = .ok value middle ∧ follow value middle = .error error next := by
  change EStateM.bind reader follow cursor = _ ↔ _
  unfold EStateM.bind
  cases reader cursor with
  | ok value middle => simp
  | error error middle => simp

theorem Fails.bind {faults : α → Fault ε} (first : Fails reader fault) (reads : Reads reader form)
    (second : ∀ value, Fails (follow value) (faults value)) : Fails (reader >>= follow) fun error rest =>
      fault error rest ∨ ∃ value front back, rest = front ++ back ∧ form value front ∧ faults value error back := by
  intro cursor error next failed
  cases bind_eq_error.mp failed with
  | inl early => exact .inl (first cursor error next early)
  | inr late =>
    obtain ⟨value, middle, read, failed'⟩ := late
    obtain ⟨taken, stands, split, _⟩ := (reads cursor value middle).mp read
    exact .inr ⟨value, taken, middle.rest, split, stands, second value middle error next failed'⟩

theorem Fails.map (fails : Fails reader fault) (convert : α → β) : Fails (do return convert (← reader)) fault := by
  intro cursor error next failed
  cases bind_eq_error.mp failed with
  | inl early => exact fails cursor error next early
  | inr late =>
    obtain ⟨_, _, _, failed'⟩ := late
    cases failed'

theorem Fails.mapError (fails : Fails reader fault) (convert : ε → ε') :
    Fails (reader.mapError convert) fun thrown rest => ∃ cause, fault cause rest ∧ thrown = convert cause := by
  intro cursor thrown next failed
  unfold Reader.mapError at failed
  cases outcome : reader cursor with
  | ok value middle =>
    rw [outcome] at failed
    cases failed
  | error cause middle =>
    rw [outcome] at failed
    cases failed
    exact ⟨cause, fails cursor cause next outcome, rfl⟩

theorem Fails.ite {condition : Prop} [Decidable condition] {yes no : Reader ε α}
    (positive : Fails yes fault) (negative : Fails no fault') : Fails (if condition then yes else no) fun error rest =>
      (condition ∧ fault error rest) ∨ (¬condition ∧ fault' error rest) := by
  by_cases holds : condition
  · rw [if_pos holds]
    exact positive.imp fun error rest faulty => .inl ⟨holds, faulty⟩
  · rw [if_neg holds]
    exact negative.imp fun error rest faulty => .inr ⟨holds, faulty⟩

theorem Fails.unless {condition : Prop} [Decidable condition] {error : ε} {follow : Unit → Reader ε α}
    (fails : Fails (follow ()) fault) :
    Fails (if condition then throw error >>= follow else follow ()) fun thrown rest =>
      (condition ∧ thrown = error) ∨ (¬condition ∧ fault thrown rest) := by
  by_cases holds : condition
  · rw [if_pos holds]
    exact (fails_throw error).imp fun thrown rest same => .inl ⟨holds, same⟩
  · rw [if_neg holds]
    exact fails.imp fun thrown rest faulty => .inr ⟨holds, faulty⟩

theorem Fails.value (fails : Fails reader fault) {bytes : Bytes} {error : ε}
    (failed : reader.value bytes = .error error) : fault error bytes := by
  unfold Reader.value at failed
  cases outcome : reader (start bytes) with
  | ok result next =>
    rw [outcome] at failed
    cases failed
  | error error' next =>
    rw [outcome] at failed
    cases failed
    exact fails (start bytes) error next outcome

end

theorem fails_byte : Fails byte fun _ rest => rest = [] := by
  intro cursor error next failed
  obtain ⟨offset, rest⟩ := cursor
  cases rest with
  | nil => rfl
  | cons first rest => cases failed

section
variable {entry : Nat → Reader ε α} {form : Form α} {fault : Nat → Fault ε}

/-- The index in the error is that of the first entry and one for each entry read before the one at fault. -/
theorem fails_entries (reads : ∀ index, Reads (entry index) form) (fails : ∀ index, Fails (entry index) (fault index))
    (limit index : Nat) : Fails (entries entry limit index) fun error rest => ∃ values front back,
      rest = front ++ back ∧ form.sequence values front ∧ back ≠ [] ∧ fault (index + values.length) error back := by
  induction limit generalizing index with
  | zero => exact fails_pure []
  | succ limit ih =>
    intro cursor error next failed
    obtain ⟨offset, rest⟩ := cursor
    cases rest with
    | nil => cases failed
    | cons byte rest =>
      change (entry index >>= fun first => entries entry limit (index + 1) >>= fun more => pure (first :: more))
        ⟨offset, byte :: rest⟩ = _ at failed
      -- The entry at hand is at fault, or a later one, whose index counts on from it.
      cases bind_eq_error.mp failed with
      | inl early =>
        exact ⟨[], [], byte :: rest, rfl, rfl, List.cons_ne_nil byte rest, fails index _ error next early⟩
      | inr late =>
        obtain ⟨first, middle, read, failed'⟩ := late
        have later := (ih (index + 1)).map (List.cons first)
        obtain ⟨values, front, back, split, stand, begun, faulty⟩ := later middle error next failed'
        obtain ⟨taken, head, whole, _⟩ := (reads index _ first middle).mp read
        refine ⟨first :: values, taken ++ front, back, ?_, ⟨taken, front, rfl, head, stand⟩, begun, ?_⟩
        · rw [List.append_assoc, ← split]
          exact whole
        · rw [List.length_cons, Nat.add_comm values.length, ← Nat.add_assoc]
          exact faulty

theorem fails_toEnd (reads : ∀ index, Reads (entry index) form) (fails : ∀ index, Fails (entry index) (fault index)) :
    Fails (toEnd entry) fun error rest => ∃ values front back,
      rest = front ++ back ∧ form.sequence values front ∧ back ≠ [] ∧ fault values.length error back := by
  intro cursor error next failed
  have located := fails_entries reads fails cursor.rest.length 0 cursor error next failed
  simpa only [Nat.zero_add] using located

end

end Reader

end MoveBytecode
