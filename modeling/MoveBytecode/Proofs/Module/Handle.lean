import MoveBytecode.Module
import MoveBytecode.Proofs.Lookup
import MoveBytecode.Proofs.Reader.Primitive
import MoveBytecode.Proofs.Steps

/-! The table of module handles is kept as it is, but a module's own name is looked up in it: all handles up to the
module's own one have to be readable, whatever stands behind them. -/

set_option autoImplicit false

namespace MoveBytecode.Module

open Reader

def encodeHandle (handle : Nat × Nat) : Bytes := Uleb128.encode handle.1 ++ Uleb128.encode handle.2

/-- A table that starts with so many handles and then one with a name, each of two numbers of 32 bits. -/
def HandleNames (table : Bytes) (index name : Nat) : Prop :=
  ∃ (before : List (Nat × Nat)) (address : Nat) (rest : Bytes), before.length = index ∧
    (∀ handle ∈ before ++ [(address, name)], handle.1 < 2 ^ 32 ∧ handle.2 < 2 ^ 32) ∧
    table = (before ++ [(address, name)]).flatMap encodeHandle ++ rest

def readHandle : Reader ReadError Nat := do
  let _ ← Reader.uleb32
  Reader.uleb32

theorem handleName_succ (target rounds index : Nat) : handleName target (rounds + 1) index =
    (readHandle >>= fun name => if index = target then pure (some name) else handleName target rounds (index + 1)) :=
  (bind_assoc ..).symm

theorem handleName_target (target rounds : Nat) :
    handleName target (rounds + 1) target = (do return some (← readHandle)) := by
  simp only [handleName_succ, if_pos]

theorem handleName_next {target index : Nat} (rounds : Nat) (other : index ≠ target) :
    handleName target (rounds + 1) index = (readHandle >>= fun _ => handleName target rounds (index + 1)) := by
  simp only [handleName_succ, if_neg other]

theorem reads_readHandle : Reads readHandle fun name taken =>
    ∃ address, (address < 2 ^ 32 ∧ name < 2 ^ 32) ∧ taken = encodeHandle (address, name) := by
  apply (reads_uleb32.bind fun _ => reads_uleb32).congr
  intro name taken
  constructor
  · rintro ⟨address, _, _, whole, ⟨small, rfl⟩, small', rfl⟩
    exact ⟨address, ⟨small, small'⟩, whole⟩
  · rintro ⟨address, ⟨small, small'⟩, whole⟩
    exact ⟨address, _, _, whole, ⟨small, rfl⟩, small', rfl⟩

/-- A loop with a round for each handle up to its target leaves at the target, never by running out of rounds. -/
theorem reads_handleName {target index skipped : Nat} (ahead : index + skipped = target) :
    Reads (handleName target (skipped + 1) index) fun name? taken =>
      ∃ (before : List (Nat × Nat)) (address name : Nat), name? = some name ∧ before.length = skipped ∧
        (∀ handle ∈ before ++ [(address, name)], handle.1 < 2 ^ 32 ∧ handle.2 < 2 ^ 32) ∧
        taken = (before ++ [(address, name)]).flatMap encodeHandle := by
  induction skipped generalizing index with
  | zero =>
    rw [Nat.add_zero] at ahead
    subst ahead
    rw [handleName_target]
    apply (reads_readHandle.map some).congr
    intro name? taken
    constructor
    · rintro ⟨name, ⟨address, small, rfl⟩, rfl⟩
      exact ⟨[], address, name, rfl, rfl, List.forall_mem_singleton.mpr small, by simp⟩
    · rintro ⟨before, address, name, rfl, none, small, rfl⟩
      cases List.eq_nil_of_length_eq_zero none
      exact ⟨name, ⟨address, small _ List.mem_cons_self, by simp⟩, rfl⟩
  | succ skipped ih =>
    -- One more handle stands in front of those that the induction speaks of.
    rw [handleName_next _ (by omega)]
    apply (reads_readHandle.bind fun _ => ih (by omega : index + 1 + skipped = target)).congr
    intro name? taken
    constructor
    · rintro ⟨second, _, _, rfl, ⟨first, small, rfl⟩, before, address, name, found, rfl, others, rfl⟩
      exact ⟨(first, second) :: before, address, name, found, rfl, List.forall_mem_cons.mpr ⟨small, others⟩, rfl⟩
    · rintro ⟨before, address, name, found, enough, small, rfl⟩
      cases before with
      | nil => cases enough
      | cons handle before =>
        obtain ⟨head, others⟩ := List.forall_mem_cons.mp small
        exact ⟨handle.2, _, _, rfl, ⟨handle.1, head, rfl⟩, before, address, name, found, Nat.succ.inj enough, others,
          rfl⟩

theorem value_handleName_eq_ok {table : Bytes} {target : Nat} {index? : Option Nat} :
    (handleName target (target + 1) 0).value table = .ok index? ↔
      ∃ index, index? = some index ∧ HandleNames table target index := by
  rw [value_eq_ok_of_reads (reads_handleName (Nat.zero_add target))]
  constructor
  · rintro ⟨_, rest, ⟨before, address, index, found, enough, small, rfl⟩, split⟩
    exact ⟨index, found, before, address, rest, enough, small, split⟩
  · rintro ⟨index, found, before, address, rest, enough, small, split⟩
    exact ⟨_, rest, ⟨before, address, index, found, enough, small, rfl⟩, split⟩

/-- The end of the loop behind its last round is not reached. -/
theorem value_handleName_ne_none {table : Bytes} {target : Nat} :
    (handleName target (target + 1) 0).value table ≠ .ok none := by
  rw [Ne, value_handleName_eq_ok]
  simp

variable {module : Module}

theorem selfNameIndex_eq_ok {index? : Option Nat} : module.selfNameIndex = .ok index? ↔
    match module.rawTable? .moduleHandles with
    | none => index? = none
    | some table => ∃ index, index? = some index ∧ HandleNames table (module.selfHandle.getD 0) index := by
  unfold selfNameIndex
  cases module.rawTable? .moduleHandles with
  | none => exact Steps.pure_eq_ok
  | some table => exact value_handleName_eq_ok

/-- The module's own handle can be read, unless there are no handles at all. -/
def HandleReadable (module : Module) : Prop :=
  ∀ table, module.rawTable? .moduleHandles = some table → ∃ name, HandleNames table (module.selfHandle.getD 0) name

theorem exists_selfName_iff : (∃ name, module.selfName = .ok name) ↔ module.HandleReadable := by
  simp only [selfName, Steps.bind_eq_ok, Steps.pure_eq_ok, selfNameIndex_eq_ok, HandleReadable]
  cases module.rawTable? .moduleHandles with
  | none => simp
  | some table => simp

end MoveBytecode.Module
