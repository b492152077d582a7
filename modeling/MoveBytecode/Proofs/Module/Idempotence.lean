import MoveBytecode.Proofs.Module.SelfRename

/-! Edits made twice. A batch that gives every identifier the name it has is accepted where names are distinct, and
changes nothing; so edits that rename no identifier but those of the module's own name leave alone what they made. -/

set_option autoImplicit false

namespace MoveBytecode

namespace Module

variable {module edited : Module} {renames : Renames} {name : String}

/-- The entries of a batch say what is the case already. -/
def Agrees (module : Module) (renames : Renames) : Prop :=
  ∀ entry ∈ renames, module.identifiers[entry.1]? = some entry.2 ∧ Identifier.IsName entry.2

theorem Agrees.substitute (agrees : module.Agrees renames) :
    renames.substitute module.identifiers = module.identifiers := by
  refine List.ext_getElem? fun index => ?_
  rw [Renames.getElem?_substitute]
  cases given : lastValue? renames index with
  | none => exact Option.map_id'
  | some name =>
    have here := (agrees (index, name) (mem_of_lastValue? given)).1
    rw [here]
    rfl

theorem Agrees.rename (agrees : module.Agrees renames) (distinct : module.identifiers.Nodup) :
    module.rename renames = .ok module := by
  have same := agrees.substitute
  have sound (index : Nat) (name : String) (given : lastValue? renames index = some name) :
      Renames.Sound module.identifiers.length (index, name) := by
    obtain ⟨here, isName⟩ := agrees (index, name) (mem_of_lastValue? given)
    exact ⟨(List.getElem?_eq_some_iff.mp here).1, isName⟩
  refine rename_eq_ok_iff.mpr ⟨Renames.accepted_of_nodup sound ?_, by rw [same]⟩
  rwa [same]

theorem isName_of_rename {renamed : Module} (done : module.rename renames = .ok renamed) {index : Nat}
    (given : lastValue? renames index = some name) : Identifier.IsName name :=
  ((rename_eq_ok_iff.mp done).1.sound index name given).2

end Module

namespace Edits

open MoveBytecode.Module

variable {edits : Edits} {module edited : Module} {aliases : Aliases}

theorem named_of_unnamed (unnamed : edits.identifiers = []) (module : Module) : edits.named module = [] := by
  rw [named, unnamed]
  rfl

theorem explicit?_of_unnamed (unnamed : edits.identifiers = []) (module : Module) (index : Nat) (old : String) :
    edits.explicit? module index old = none := by
  rw [explicit?, unnamed]
  exact ite_self none

/-- The module that the edits made has the name that they give it. Another identifier may have become its name in
capitals, but that one needs no other name then. -/
theorem agrees_own (unnamed : edits.identifiers = []) (done : edits.apply module aliases = .ok edited) :
    ∃ own, edits.own edited = .ok own ∧ edited.Agrees own := by
  obtain ⟨own, renamed, given, _, named, _⟩ := apply_eq_ok.mp done
  have outcome := outcome_of_apply done
  -- No entry renames an identifier by its name, so the renames are those of the new name of the module.
  rw [named_of_unnamed unnamed, List.append_nil] at named
  have results := outcome.identifiers own given
  unfold Edits.own at given ⊢
  cases wanted : edits.moduleName with
  | none => exact ⟨[], rfl, nofun⟩
  | some name =>
    rw [wanted] at given
    obtain ⟨index, old, found, here, rfl⟩ := selfRenames_eq_ok.mp given
    have isName := isName_of_rename named (given_own module index old name)
    have now := results index old here
    rw [explicit?_of_unnamed unnamed, given_own] at now
    refine ⟨_, selfRenames_eq_ok.mpr ⟨index, name, outcome.shape.selfNameIndex_eq.trans found, now, rfl⟩, ?_⟩
    refine List.forall_mem_cons.mpr ⟨⟨now, isName⟩, List.forall_mem_map.mpr fun place member => ?_⟩
    have witness := (Option.filter_eq_some_iff.mp (Option.mem_toList.mp member)).1
    exact ⟨getElem?_of_identifierIndex? witness, Identifier.isName_upperCase isName⟩

theorem accepted_again (unnamed : edits.identifiers = []) (distinct : edited.identifiers.Nodup)
    (done : edits.apply module aliases = .ok edited) : edits.Accepted edited aliases where
  identifiers := by
    rw [unnamed]
    exact List.forall_mem_nil _
  renames := by
    obtain ⟨own, given, agrees⟩ := agrees_own unnamed done
    refine ⟨own, edited, given, ?_⟩
    rw [named_of_unnamed unnamed, List.append_nil]
    exact agrees.rename distinct
  constants := by
    rw [(outcome_of_apply done).shape.types]
    exact (exists_apply.mp ⟨edited, done⟩).constants

theorem outcome_again (unnamed : edits.identifiers = []) (done : edits.apply module aliases = .ok edited) :
    edits.Outcome edited aliases edited where
  shape := .refl edited
  identifiers own' given' index old here := by
    obtain ⟨_, given, agrees⟩ := agrees_own unnamed done
    cases given'.symm.trans given
    rw [explicit?_of_unnamed unnamed, Option.none_or]
    cases again : lastValue? own' index with
    | none => exact here
    | some name => exact (agrees (index, name) (mem_of_lastValue? again)).1
  constants index new here := by
    -- The constant there took the last text for its place, and its type is what it was.
    have shape := (outcome_of_apply done).shape
    obtain ⟨old, was⟩ : ∃ old, module.constants[index]? = some old := by
      have inside := (List.getElem?_eq_some_iff.mp here).1
      rw [shape.length_constants] at inside
      exact ⟨_, List.getElem?_eq_getElem inside⟩
    obtain ⟨result, there, takes⟩ := (outcome_of_apply done).constants index old was
    cases here.symm.trans there
    refine ⟨new, here, ?_⟩
    unfold Constant.Takes at takes ⊢
    cases wanted : edits.text? aliases index with
    | none => rfl
    | some text =>
      rw [wanted] at takes
      exact ⟨rfl, takes.1 ▸ takes.2⟩

/-- Edits that rename no identifier by its name do nothing more to what they made of a module with distinct identifiers,
nor to its bytes. -/
theorem apply_again (reachable : Reachable module) (distinct : module.identifiers.Nodup)
    (unnamed : edits.identifiers = []) (done : edits.apply module aliases = .ok edited) :
    edits.apply edited aliases = .ok edited ∧
      ∀ written, edited.encode = .ok written → instantiate written edits aliases = .ok written := by
  have again : edits.apply edited aliases = .ok edited := by
    have performed : (Edit.instantiate edits aliases).perform module = .ok edited := done
    have accepted := accepted_again unnamed ((Edit.renamed_of_perform performed).distinct distinct) done
    obtain ⟨other, done'⟩ := exists_apply.mpr accepted
    rw [done', (outcome_of_apply done').unique accepted (outcome_again unnamed done)]
  refine ⟨again, fun written encoded => ?_⟩
  have valid := reachable.valid.of_sameShape (sameShape_of_apply done)
  exact instantiate_eq_ok.mpr ⟨edited, edited, valid.decode_of_encode encoded, again, encoded⟩

def unwitnessed : Module := (Edit.renameIdentifier 1 "SILVER").after coin

def silverTemplate : Edits where
  moduleName := some "silver"
  identifiers := []
  constants := [("GREETING", "Hi there"), ("constant_0", "Hello")]

def witnessed : Module where
  __ := silver
  identifiers := ["silver", "SILVER"]

theorem apply_again_witnessed : silverTemplate.apply unwitnessed [("constant_0", "GREETING")] = .ok witnessed ∧
    unwitnessed.witness? 0 "coin" = none ∧ witnessed.witness? 0 "silver" = some 1 ∧
    silverTemplate.apply witnessed [("constant_0", "GREETING")] = .ok witnessed ∧
    instantiate witnessed.frame.encode silverTemplate [("constant_0", "GREETING")] = .ok witnessed.frame.encode := by
  have read : decode coinBytes = .ok coin := by decide +kernel
  have reachable : Reachable unwitnessed := .edited (.decoded read) _
  have distinct : unwitnessed.identifiers.Nodup := by decide +kernel
  have done : silverTemplate.apply unwitnessed [("constant_0", "GREETING")] = .ok witnessed := by decide +kernel
  have encoded : witnessed.encode = .ok witnessed.frame.encode := by decide +kernel
  obtain ⟨again, bytes⟩ := apply_again reachable distinct rfl done
  exact ⟨done, by decide +kernel, by decide +kernel, again, bytes _ encoded⟩

end Edits

end MoveBytecode
