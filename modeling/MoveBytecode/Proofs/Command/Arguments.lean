import MoveBytecode.Command.Arguments
import MoveBytecode.Proofs.Lookup
import MoveBytecode.Proofs.Steps

/-! What a command says that it was told stands in the words of its line. A flag without a letter can only be given by a
word of its own. -/

set_option autoImplicit false

namespace MoveBytecode

namespace Arguments

/-- A flag that is given by its word alone, wherever a level has it. -/
def Level.Spells (level : Level) (flag : String) : Prop :=
  ∀ switch ∈ level.switches, switch.word = flag → switch.letter = none ∧ switch.meaning = .flag

namespace Given

/-- A flag that was given is among the words; no other switch waits under its name. -/
structure Shows (given : Given) (flag : String) (words : List String) : Prop where
  spelled : given.has flag = true → "--" ++ flag ∈ words
  pending : ∀ switch value, given.pending = some (switch, value) → switch.word ≠ flag

variable {given after : Given} {switch : Switch} {value flag : String} {words : List String} {level : Level}

theorem has_iff : given.has flag = true ↔ flag ∈ given.switches.map Prod.fst := lookup_isSome_iff

theorem eq_of_add (added : given.add switch value = .ok after) :
    after = { given with switches := given.switches ++ [(switch.word, value)] } := by
  unfold add at added
  split at added
  · split at added
    · cases added
    · exact (Except.ok.inj added).symm
  · exact (Except.ok.inj added).symm
  · split at added
    · cases added
    · exact (Except.ok.inj added).symm
  · cases added

theorem Shows.add (earlier : given.Shows flag words) (spelled : switch.word = flag → "--" ++ flag ∈ words)
    (added : given.add switch value = .ok after) : after.Shows flag words := by
  rw [eq_of_add added]
  refine ⟨fun has => ?_, earlier.pending⟩
  rw [has_iff, List.map_append] at has
  rcases List.mem_append.mp has with before | now
  · exact earlier.spelled (has_iff.mpr before)
  · exact spelled (List.mem_singleton.mp now).symm

theorem Shows.settle (earlier : given.Shows flag words) (settled : given.settle = .ok after) :
    after.Shows flag words := by
  unfold Given.settle at settled
  split at settled
  · cases settled
    exact earlier
  · next switch value waits =>
    have free : Shows { given with pending := none } flag words := ⟨earlier.spelled, nofun⟩
    exact free.add (fun same => absurd same (earlier.pending switch value waits)) settled

theorem Shows.take (earlier : given.Shows flag words) (spelled : switch.word = flag → "--" ++ flag ∈ words)
    (taken : given.take switch value = .ok after) : after.Shows flag words := by
  obtain ⟨middle, settled, added⟩ := Steps.bind_eq_ok.mp taken
  exact (earlier.settle settled).add spelled added

theorem Shows.takeOperand {operand : String} (earlier : given.Shows flag words)
    (taken : takeOperand level given operand = .ok after) : after.Shows flag words := by
  obtain ⟨middle, settled, done⟩ := Steps.bind_eq_ok.mp taken
  have free := earlier.settle settled
  split at done
  · cases done
    exact ⟨free.spelled, free.pending⟩
  · cases done

end Given

open Given

variable {level : Level} {given after : Given} {flag : String} {words : List String} {waiting : Option Switch}

/-- The switch that waits for its value is another one, since a flag takes none. -/
def Apart (flag : String) (waiting : Option Switch) : Prop := ∀ switch ∈ waiting, switch.word ≠ flag

end Arguments

end MoveBytecode
