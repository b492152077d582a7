import MoveBytecode.Proofs.Module.Handle
import MoveBytecode.Proofs.Module.Reachable

/-! The name that a module gives itself. Its own handle may have any number, but the lookup goes on only as far as there
are handles to read, and each of them takes two bytes at least; edits come nowhere near it. -/

set_option autoImplicit false

namespace MoveBytecode.Module

open Reader

/-- The lookup with the number of its rounds, each of which sets out to read a handle. -/
def countedName (target : Nat) : (rounds index : Nat) → Cursor → EStateM.Result ReadError Cursor (Option Nat) × Nat
  | 0, _, cursor => (.ok none cursor, 0)
  | rounds + 1, index, cursor =>
    match readHandle cursor with
    | .error error next => (.error error next, 1)
    | .ok name next =>
      if index = target then (.ok (some name) next, 1)
      else ((countedName target rounds (index + 1) next).1, (countedName target rounds (index + 1) next).2 + 1)

theorem fst_countedName (target rounds index : Nat) (cursor : Cursor) :
    (countedName target rounds index cursor).1 = handleName target rounds index cursor := by
  induction rounds generalizing index cursor with
  | zero => rfl
  | succ rounds ih =>
    rw [countedName, handleName_succ]
    cases outcome : readHandle cursor with
    | error error next => rw [bind_of_error outcome]
    | ok name next =>
      rw [bind_of_ok outcome]
      by_cases here : index = target
      · simp only [if_pos here]
        rfl
      · simp only [if_neg here, ih]

theorem snd_countedName_le (target rounds index : Nat) (cursor : Cursor) :
    (countedName target rounds index cursor).2 ≤ cursor.rest.length / 2 + 1 := by
  induction rounds generalizing index cursor with
  | zero => exact Nat.zero_le _
  | succ rounds ih =>
    rw [countedName]
    cases outcome : readHandle cursor with
    | error error next => exact Nat.le_add_left 1 _
    | ok name next =>
      -- A handle takes two bytes at least, so that what is left behind it has room for one round less.
      obtain ⟨_, ⟨address, _, rfl⟩, whole, _⟩ := (reads_readHandle cursor name next).mp outcome
      have first := List.length_pos_iff.mpr (Uleb128.encode_ne_nil address)
      have second := List.length_pos_iff.mpr (Uleb128.encode_ne_nil name)
      have length := congrArg List.length whole
      simp only [encodeHandle, List.length_append] at length
      have later := ih (index + 1) next
      by_cases here : index = target
      · simp only [if_pos here]
        omega
      · simp only [if_neg here]
        omega

variable {module : Module}

theorem Valid.rawTable?_eq_none (valid : module.Valid) :
    module.rawTable? .moduleHandles = none ↔ .moduleHandles ∉ module.directory := by
  rw [rawTable?, ← Option.not_isSome_iff_eq_none, lookup_isSome_iff, valid.rawKinds, List.mem_filter]
  simp [TableKind.isParsed]

theorem selfNameIndex_eq_none : module.selfNameIndex = .ok none ↔ module.rawTable? .moduleHandles = none := by
  rw [selfNameIndex_eq_ok]
  cases module.rawTable? .moduleHandles with
  | none => simp
  | some table => simp

theorem selfNameIndex_eq_some {table : Bytes} {index : Nat} (given : module.rawTable? .moduleHandles = some table) :
    module.selfNameIndex = .ok (some index) ↔ HandleNames table (module.selfHandle.getD 0) index := by
  rw [selfNameIndex_eq_ok, given]
  simp

/-- A module that was read, and perhaps edited, has no name index exactly if it lists no handles. If it does, the index
is that of its own handle, which is the first one in old versions; all handles up to it have to be readable. The lookup
leaves at that handle or with an error, after a number of rounds that the length of the table limits whatever the handle
is. The name is the identifier with the index. -/
theorem selfNameIndex_iff (reachable : Reachable module) :
    (module.selfHandle.isSome = true ↔ 5 ≤ module.header.version) ∧
    (module.selfNameIndex = .ok none ↔ .moduleHandles ∉ module.directory) ∧
    (∀ table, module.rawTable? .moduleHandles = some table →
      (∀ index, module.selfNameIndex = .ok (some index) ↔ HandleNames table (module.selfHandle.getD 0) index) ∧
      ((∀ index, ¬HandleNames table (module.selfHandle.getD 0) index) →
        (∃ needed place remaining, module.selfNameIndex = .error (.outOfBounds needed place remaining)) ∨
        ∃ place, module.selfNameIndex = .error (.malformedUleb128 place))) ∧
    (∀ target table,
      (handleName target (target + 1) 0).value table ≠ .ok none ∧
      (countedName target (target + 1) 0 (Reader.start table)).1 =
        handleName target (target + 1) 0 (Reader.start table) ∧
      (countedName target (target + 1) 0 (Reader.start table)).2 ≤ table.length / 2 + 1) ∧
    (∀ edit : Edit, (edit.after module).selfNameIndex = module.selfNameIndex) ∧
    ∀ index, module.selfNameIndex = .ok (some index) → module.selfName = .ok module.identifiers[index]? := by
  have valid := reachable.valid
  refine ⟨?_, ?_, fun table given => ⟨fun index => selfNameIndex_eq_some given, fun unnamed => ?_⟩,
    fun target table => ?_, fun edit => (edit.sameShape_after module).selfNameIndex_eq, fun index found => ?_⟩
  · rw [valid.handle_present]
    exact decide_eq_true_iff
  · exact selfNameIndex_eq_none.trans valid.rawTable?_eq_none
  · cases outcome : module.selfNameIndex with
    | ok index? =>
      cases index? with
      | none =>
        rw [selfNameIndex_eq_none, given] at outcome
        cases outcome
      | some index => exact absurd ((selfNameIndex_eq_some given).mp outcome) (unnamed index)
    | error error =>
      cases error with
      | outOfBounds needed place remaining => exact .inl ⟨needed, place, remaining, rfl⟩
      | malformedUleb128 place => exact .inr ⟨place, rfl⟩
  · exact ⟨value_handleName_ne_none, fst_countedName target _ 0 _, snd_countedName_le target _ 0 _⟩
  · rw [selfName, found]
    rfl

theorem selfNameIndex_gold : Reachable gold ∧ gold.selfNameIndex = .ok (some 0) ∧ gold.selfName = .ok (some "gold") ∧
    ((Edit.renameSelf "silver").after gold).selfNameIndex = .ok (some 0) ∧
    (countedName 4294967295 4294967296 0 (Reader.start [0, 0, 1])).2 ≤ 2 := by
  obtain ⟨_, _, lookup, rounds, kept, name⟩ := selfNameIndex_iff reachable_gold
  have found : gold.selfNameIndex = .ok (some 0) :=
    ((lookup [0, 0] (by decide +kernel)).1 0).mpr ⟨[], 0, [], rfl, by decide, rfl⟩
  exact ⟨reachable_gold, found, (name 0 found).trans (by decide +kernel), (kept _).trans found, (rounds _ _).2.2⟩

end MoveBytecode.Module
