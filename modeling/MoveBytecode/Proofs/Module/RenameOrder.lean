import MoveBytecode.Proofs.Module.Rename

/-! Renames in different orders. A batch that names no identifier twice is the same in any order. Made one by one, its
renames are checked against the identifiers as they stand in between: where that finds no fault in some order, the batch
has none either. The batch can do more, since it may exchange two names. -/

set_option autoImplicit false

namespace MoveBytecode

namespace Renames

variable {renames order : Renames} {identifiers : List String}

theorem settled_of_perm (distinct : (renames.map Prod.fst).Nodup) (perm : order.Perm renames) :
    order.settled = renames.settled := by
  have nodup (batch : Renames) : batch.settled.Nodup :=
    (ordered_settled batch).imp fun {_ _} before same => Nat.ne_of_lt before (congrArg Prod.fst same)
  have members : ∀ entry, entry ∈ order.settled ↔ entry ∈ renames.settled := by
    intro entry
    rw [mem_settled, mem_settled, lastValue?_of_perm distinct perm]
  have settled := (List.perm_ext_iff_of_nodup (nodup order) (nodup renames)).mpr members
  exact settled.eq_of_pairwise (fun _ _ _ _ before after => absurd after (Nat.lt_asymm before))
    (ordered_settled order) (ordered_settled renames)

@[simp] theorem length_substitute (renames : Renames) (identifiers : List String) :
    (renames.substitute identifiers).length = identifiers.length := List.length_mapIdx

@[simp] theorem substitute_nil (identifiers : List String) : substitute [] identifiers = identifiers := by
  refine List.ext_getElem? fun index => ?_
  rw [getElem?_substitute]
  exact Option.map_id'

theorem substitute_cons (entry : Nat × String) (rest : Renames) (identifiers : List String) :
    substitute (entry :: rest) identifiers = rest.substitute (substitute [entry] identifiers) := by
  refine List.ext_getElem? fun index => ?_
  simp only [getElem?_substitute, lastValue?_cons, Option.map_map]
  congr 1
  funext old
  cases lastValue? rest index <;> simp

/-- A rename that was accepted before others of other identifiers is accepted together with them. -/
theorem Accepted.cons {entry : Nat × String} {rest : Renames} (fresh : entry.1 ∉ rest.map Prod.fst)
    (first : Accepted [entry] identifiers) (others : rest.Accepted (substitute [entry] identifiers)) :
    Accepted (entry :: rest) identifiers := by
  have own : lastValue? [entry] entry.1 = some entry.2 := by simp [lastValue?_cons]
  have untouched : lastValue? rest entry.1 = none :=
    lookup_eq_none_of_fresh (by rwa [List.map_reverse, List.mem_reverse])
  -- What counts is an entry of the rest, or the first one.
  have origin (index : Nat) (name : String) (given : lastValue? (entry :: rest) index = some name) :
      lastValue? rest index = some name ∨ (index, name) = entry := by
    rw [lastValue?_cons, Option.or_eq_some_iff] at given
    refine given.imp_right fun alone => ?_
    have here := alone.2
    split at here
    · next same => exact Prod.ext (beq_iff_eq.mp same) (Option.some.inj here).symm
    · cases here
  constructor
  · intro index name given
    cases origin index name given with
    | inl later =>
      have sound := others.sound index name later
      rwa [length_substitute] at sound
    | inr same =>
      cases same
      exact first.sound index name own
  · intro index name given place there
    rw [substitute_cons] at there
    cases origin index name given with
    | inl later => exact others.apart index name later place there
    | inr same =>
      cases same
      cases renamed : lastValue? rest place with
      | none =>
        rw [getElem?_substitute, renamed] at there
        exact first.apart index name own place (by simpa using there)
      | some new =>
        -- A later rename that gave the same name would have found it at the first one's place.
        have here : (rest.substitute (substitute [(index, name)] identifiers))[index]? = some name := by
          rw [getElem?_substitute, untouched, getElem?_substitute, own,
            List.getElem?_eq_getElem (first.sound index name own).1]
          rfl
        have taken : new = name := by
          rw [getElem?_substitute, renamed, Option.map_eq_some_iff] at there
          obtain ⟨_, _, same⟩ := there
          exact same
        subst taken
        exact (others.apart place new renamed index here).symm

end Renames

namespace Module

variable {module middle renamed : Module} {renames order : Renames}

/-- The renames one by one, up to the first that is refused. -/
def renameEach (module : Module) (renames : Renames) : Except EditError Module :=
  renames.foldlM (fun state entry => state.renameIdentifier entry.1 entry.2) module

theorem rename_nil (module : Module) : module.rename [] = .ok module := by
  rw [rename_eq_ok_iff, Renames.substitute_nil]
  exact ⟨⟨nofun, nofun⟩, rfl⟩

theorem rename_cons {entry : Nat × String} {rest : Renames} (fresh : entry.1 ∉ rest.map Prod.fst)
    (first : module.renameIdentifier entry.1 entry.2 = .ok middle) (others : middle.rename rest = .ok renamed) :
    module.rename (entry :: rest) = .ok renamed := by
  obtain ⟨accepted, made⟩ := rename_eq_ok_iff.mp first
  subst made
  obtain ⟨accepted', made⟩ := rename_eq_ok_iff.mp others
  exact rename_eq_ok_iff.mpr ⟨accepted.cons fresh accepted', by rw [made, Renames.substitute_cons entry rest]⟩

theorem rename_of_renameEach (distinct : (renames.map Prod.fst).Nodup)
    (done : module.renameEach renames = .ok renamed) : module.rename renames = .ok renamed := by
  induction renames generalizing module with
  | nil =>
    cases done
    exact rename_nil renamed
  | cons entry rest ih =>
    obtain ⟨fresh, distinct⟩ := List.nodup_cons.mp distinct
    rw [renameEach, List.foldlM_cons] at done
    obtain ⟨middle, first, others⟩ := Steps.bind_eq_ok.mp done
    exact rename_cons fresh first (ih distinct others)

theorem rename_of_perm (distinct : (renames.map Prod.fst).Nodup) (perm : order.Perm renames) (module : Module) :
    module.rename order = module.rename renames := by
  simp only [rename_eq, Renames.refusal?, Renames.settled_of_perm distinct perm]

/-- Renames of different identifiers are made or refused alike in any order, and where they can be made one by one in
some order, the batch makes the same module. -/
theorem rename_in_any_order (distinct : (renames.map Prod.fst).Nodup) (perm : order.Perm renames) (module : Module) :
    module.rename order = module.rename renames ∧
      ∀ renamed, module.renameEach order = .ok renamed → module.rename renames = .ok renamed := by
  have same := rename_of_perm distinct perm module
  refine ⟨same, fun renamed done => ?_⟩
  have distinct' := (perm.map Prod.fst).nodup_iff.mpr distinct
  rw [← same]
  exact rename_of_renameEach distinct' done

theorem rename_in_any_order_coin : ([(0, "COIN"), (1, "gold")] : Renames).map Prod.fst = [0, 1] ∧
    coin.renameEach [(0, "COIN"), (1, "gold")] = .error (.duplicateIdentifier "COIN" 1) ∧
    coin.renameEach [(1, "gold"), (0, "COIN")] = .ok { coin with identifiers := ["COIN", "gold"] } ∧
    coin.rename [(0, "COIN"), (1, "gold")] = .ok { coin with identifiers := ["COIN", "gold"] } ∧
    coin.rename [(1, "gold"), (0, "COIN")] = .ok { coin with identifiers := ["COIN", "gold"] } := by
  have distinct : (([(0, "COIN"), (1, "gold")] : Renames).map Prod.fst).Nodup := by decide
  have done : coin.renameEach [(1, "gold"), (0, "COIN")] = .ok { coin with identifiers := ["COIN", "gold"] } := by
    decide +kernel
  obtain ⟨same, batch⟩ := rename_in_any_order distinct (List.Perm.swap _ _ _) coin
  exact ⟨rfl, by decide +kernel, done, batch _ done, same.trans (batch _ done)⟩

-- An exchange is a batch only: in either order its first rename finds its name taken.
example : coin.rename [(0, "COIN"), (1, "coin")] = .ok { coin with identifiers := ["COIN", "coin"] } ∧
    coin.renameEach [(0, "COIN"), (1, "coin")] = .error (.duplicateIdentifier "COIN" 1) ∧
    coin.renameEach [(1, "coin"), (0, "COIN")] = .error (.duplicateIdentifier "coin" 0) := by
  decide +kernel

end Module

end MoveBytecode
