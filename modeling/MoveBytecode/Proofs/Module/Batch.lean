import MoveBytecode.Proofs.Lookup
import MoveBytecode.Proofs.Module.Reachable

/-! What a batch of edits asks for and what it leads to. Its keys are looked up in the module as it was, and of several
entries for one place the last one counts. -/

set_option autoImplicit false

namespace MoveBytecode

namespace Renames

theorem lookup_set (renames : Renames) (index other : Nat) (name : String) :
    (renames.set index name).lookup other = if other = index then some name else renames.lookup other := by
  induction renames with
  | nil => grind [set, List.lookup]
  | cons entry rest ih => grind [set, List.lookup]

/-- The names in which a batch results are those that were given last. -/
theorem lookup_settled (renames : Renames) (index : Nat) : renames.settled.lookup index = lastValue? renames index := by
  induction renames using List.reverseRecOn with
  | nil => rfl
  | append_singleton before entry ih =>
    have last : settled (before ++ [entry]) = (settled before).set entry.1 entry.2 := List.foldl_append ..
    rw [last, lookup_set, ih, lastValue?_append, lastValue?_cons]
    by_cases same : index = entry.1 <;> simp [same, lastValue?]

theorem getElem?_apply (renames : Renames) (identifiers : List String) (index : Nat) :
    (renames.apply identifiers)[index]? = identifiers[index]?.map fun old => (renames.lookup index).getD old :=
  List.getElem?_mapIdx ..

end Renames

namespace Module

variable {module : Module} {index : Nat} {name : String}

theorem getElem?_of_identifierIndex? (found : module.identifierIndex? name = some index) :
    module.identifiers[index]? = some name := by
  obtain ⟨inside, same, _⟩ := List.findIdx?_eq_some_iff_getElem.mp found
  rw [List.getElem?_eq_getElem inside, of_decide_eq_true same]

theorem isSome_identifierIndex? : (module.identifierIndex? name).isSome = true ↔ name ∈ module.identifiers := by
  rw [identifierIndex?, List.findIdx?_isSome, List.any_eq_true]
  simp

end Module

/-- The constant that a text, if there is one, makes of another. -/
def Constant.Takes (text? : Option String) (old new : Constant) : Prop :=
  match text? with
  | none => new = old
  | some text => new.ty = old.ty ∧ Value.parse old.ty text = .ok new.value

theorem Constant.Takes.unique {text? : Option String} {old first second : Constant}
    (takes : Constant.Takes text? old first) (takes' : Constant.Takes text? old second) : first = second := by
  cases text? with
  | none => exact takes.trans takes'.symm
  | some text =>
    obtain ⟨type, read⟩ := takes
    obtain ⟨type', read'⟩ := takes'
    have value := Except.ok.inj (read.symm.trans read')
    cases first
    cases second
    simp_all

namespace Edits

open MoveBytecode.Module

/-- The renames that go with a new name of the module, if there is one. -/
def own (edits : Edits) (module : Module) : Except EditError Renames :=
  match edits.moduleName with
  | none => .ok []
  | some name => module.selfRenames name

/-- The renames of the entries whose old name some identifier has, each for the first such one. -/
def named (edits : Edits) (module : Module) : Renames :=
  edits.identifiers.filterMap fun entry => (module.identifierIndex? entry.1).map fun index => (index, entry.2)

/-- The name that an entry gives to an identifier: only the first identifier of a name is meant by it. -/
def explicit? (edits : Edits) (module : Module) (index : Nat) (old : String) : Option String :=
  if module.identifierIndex? old = some index then lastValue? edits.identifiers old else none

def text? (edits : Edits) (aliases : Aliases) (index : Nat) : Option String :=
  lastValue? (edits.constants.map fun entry => (aliases.resolve entry.1, entry.2)) (some index)

def Suits (aliases : Aliases) (types : List Ty) (entry : String × String) : Prop :=
  ∃ index ty value, aliases.resolve entry.1 = some index ∧ types[index]? = some ty ∧ Value.parse ty entry.2 = .ok value

structure Accepted (edits : Edits) (module : Module) (aliases : Aliases) : Prop where
  identifiers : ∀ entry ∈ edits.identifiers, entry.1 ∈ module.identifiers
  renames : ∃ own renamed, edits.own module = .ok own ∧ module.rename (own ++ edits.named module) = .ok renamed
  constants : ∀ entry ∈ edits.constants, Suits aliases (module.constants.map Constant.ty) entry

structure Outcome (edits : Edits) (module : Module) (aliases : Aliases) (edited : Module) : Prop where
  shape : module.SameShape edited
  identifiers : ∀ own, edits.own module = .ok own → ∀ index old, module.identifiers[index]? = some old →
    edited.identifiers[index]? = some (((edits.explicit? module index old).or (lastValue? own index)).getD old)
  constants : ∀ index old, module.constants[index]? = some old →
    ∃ new, edited.constants[index]? = some new ∧ Constant.Takes (edits.text? aliases index) old new

section
variable {edits : Edits} {module edited : Module} {aliases : Aliases} {entry : String × String}

theorem mapM_named {entries : Dictionary String} {renames : Renames} :
    (entries.mapM fun (old, new) => (match module.identifierIndex? old with
      | some index => pure (index, new)
      | none => throw (EditError.unknownIdentifier old) : Except EditError (Nat × String))) = .ok renames ↔
    (∀ entry ∈ entries, entry.1 ∈ module.identifiers) ∧
      renames = entries.filterMap fun entry => (module.identifierIndex? entry.1).map fun index => (index, entry.2) := by
  rw [Steps.mapM_eq_ok]
  induction entries generalizing renames with
  | nil => simp
  | cons entry rest ih =>
    simp only [List.forall₂_cons_left_iff, ih, List.forall_mem_cons, List.filterMap_cons]
    -- An old name that no identifier has ends the row, and is the one that is missing.
    cases found : module.identifierIndex? entry.1 with
    | none =>
      have absent : entry.1 ∉ module.identifiers := by
        rw [← isSome_identifierIndex?, found]
        exact Bool.false_ne_true
      simp [absent, throw, throwThe, MonadExceptOf.throw]
    | some index =>
      have present : entry.1 ∈ module.identifiers := by
        rw [← isSome_identifierIndex?, found]
        rfl
      simp [present, pure, Except.pure, eq_comm]

theorem renames_eq_ok {renames : Renames} : edits.renames module = .ok renames ↔
    ∃ own, edits.own module = .ok own ∧ (∀ entry ∈ edits.identifiers, entry.1 ∈ module.identifiers) ∧
      renames = own ++ edits.named module := by
  have behind (step : Except EditError Renames) : step >>= (fun own => do
      let named ← edits.identifiers.mapM fun (old, new) => match module.identifierIndex? old with
        | some index => pure (index, new)
        | none => throw (.unknownIdentifier old)
      return own ++ named) = .ok renames ↔
        ∃ own, step = .ok own ∧ (∀ entry ∈ edits.identifiers, entry.1 ∈ module.identifiers) ∧
          renames = own ++ edits.named module := by
    constructor
    · intro done
      obtain ⟨own, first, done⟩ := Steps.bind_eq_ok.mp done
      obtain ⟨_, listed, whole⟩ := Steps.bind_eq_ok.mp done
      obtain ⟨known, rfl⟩ := mapM_named.mp listed
      cases whole
      exact ⟨own, first, known, rfl⟩
    · rintro ⟨own, first, known, rfl⟩
      exact Steps.bind_eq_ok.mpr ⟨own, first, Steps.bind_eq_ok.mpr ⟨_, mapM_named.mpr ⟨known, rfl⟩, rfl⟩⟩
  unfold Edits.renames own
  cases edits.moduleName with
  | none => exact behind (pure [])
  | some name => exact behind (module.selfRenames name)

theorem lastValue?_named {index : Nat} {old : String} (here : module.identifiers[index]? = some old) :
    lastValue? (edits.named module) index = edits.explicit? module index old := by
  unfold named explicit?
  induction edits.identifiers with
  | nil => simp [lastValue?]
  | cons entry rest ih =>
    rw [List.filterMap_cons, lastValue?_cons]
    cases found : module.identifierIndex? entry.1 with
    | none =>
      have other : module.identifierIndex? old = some index → old ≠ entry.1 := by
        rintro first rfl
        rw [found] at first
        cases first
      simp only [Option.map_none, ih]
      split
      · rename_i first
        simp [other first]
      · rfl
    | some place =>
      -- The entry is for this place exactly if the place is the first one with its key.
      have same : index = place ↔ module.identifierIndex? old = some index ∧ old = entry.1 := by
        constructor
        · rintro rfl
          have key := getElem?_of_identifierIndex? found
          rw [here] at key
          cases key
          exact ⟨found, rfl⟩
        · rintro ⟨first, rfl⟩
          rw [found] at first
          cases first
          rfl
      simp only [Option.map_some, lastValue?_cons, ih, beq_iff_eq, same]
      by_cases first : module.identifierIndex? old = some index <;> simp [first]

theorem replaceOne_eq_ok : replaceOne aliases module entry = .ok edited ↔
    ∃ index constant value, aliases.resolve entry.1 = some index ∧ module.constants[index]? = some constant ∧
      Value.parse constant.ty entry.2 = .ok value ∧
      edited = { module with constants := module.constants.set index { constant with value } } := by
  obtain ⟨key, text⟩ := entry
  simp only [replaceOne]
  cases found : aliases.resolve key with
  | none => simp
  | some index =>
    by_cases inside : index < module.constants.length
    · simp [Option.filter_some, inside, replaceConstant_eq_ok]
    · simp [Option.filter_some, inside]

theorem exists_replaceOne : (∃ edited, replaceOne aliases module entry = .ok edited) ↔
    Suits aliases (module.constants.map Constant.ty) entry := by
  simp only [replaceOne_eq_ok, Suits, List.getElem?_map, Option.map_eq_some_iff]
  constructor
  · rintro ⟨_, index, constant, value, found, here, parsed, _⟩
    exact ⟨index, constant.ty, value, found, ⟨constant, here, rfl⟩, parsed⟩
  · rintro ⟨index, _, value, found, ⟨constant, here, rfl⟩, parsed⟩
    exact ⟨_, index, constant, value, found, here, parsed, rfl⟩

/-- Replacing a constant changes no type, so a text suits its constant before the first one as before any other. -/
theorem exists_replaceAll {entries : Dictionary String} :
    (∃ edited, entries.foldlM (replaceOne aliases) module = .ok edited) ↔
      ∀ entry ∈ entries, Suits aliases (module.constants.map Constant.ty) entry := by
  induction entries generalizing module with
  | nil => exact ⟨fun _ => List.forall_mem_nil _, fun _ => ⟨module, rfl⟩⟩
  | cons entry rest ih =>
    simp only [List.foldlM_cons, Steps.bind_eq_ok, List.forall_mem_cons, ← exists_replaceOne]
    constructor
    · rintro ⟨edited, middle, first, others⟩
      refine ⟨⟨middle, first⟩, fun other member => ?_⟩
      have suits := ih.mp ⟨edited, others⟩ other member
      rwa [(sameShape_of_replaceOne first).types, ← exists_replaceOne] at suits
    · rintro ⟨⟨middle, first⟩, others⟩
      have suits : ∀ other ∈ rest, Suits aliases (middle.constants.map Constant.ty) other := by
        intro other member
        rw [(sameShape_of_replaceOne first).types, ← exists_replaceOne]
        exact others other member
      obtain ⟨edited, done⟩ := ih.mpr suits
      exact ⟨edited, middle, first, done⟩

theorem identifiers_of_replaceOne (done : replaceOne aliases module entry = .ok edited) :
    edited.identifiers = module.identifiers := by
  obtain ⟨_, _, _, _, _, _, made⟩ := replaceOne_eq_ok.mp done
  rw [made]

theorem identifiers_of_replaceAll {entries : Dictionary String}
    (done : entries.foldlM (replaceOne aliases) module = .ok edited) : edited.identifiers = module.identifiers :=
  @Steps.kept_of_foldlM _ _ _ (fun before after : Module => after.identifiers = before.identifiers) (fun _ => rfl)
    (fun first second => second.trans first) _ identifiers_of_replaceOne _ _ _ done

theorem takes_of_replaceOne (done : replaceOne aliases module entry = .ok edited) {index : Nat} {old : Constant}
    (here : module.constants[index]? = some old) : ∃ new, edited.constants[index]? = some new ∧
      Constant.Takes (if some index == aliases.resolve entry.1 then some entry.2 else none) old new := by
  obtain ⟨place, constant, value, found, there, parsed, made⟩ := replaceOne_eq_ok.mp done
  subst made
  rw [found]
  by_cases same : index = place
  · subst same
    cases here.symm.trans there
    obtain ⟨inside, _⟩ := List.getElem?_eq_some_iff.mp here
    exact ⟨{ old with value }, by simp [inside], by simp [Constant.Takes, parsed]⟩
  · refine ⟨old, ?_, by simp [same, Constant.Takes]⟩
    rw [List.getElem?_set_ne (Ne.symm same), here]

theorem takes_later {earlier later : Option String} {old middle new : Constant}
    (first : Constant.Takes earlier old middle) (second : Constant.Takes later middle new) :
    Constant.Takes (later.or earlier) old new := by
  have type : middle.ty = old.ty := by
    cases earlier with
    | none => rw [first]
    | some text => exact first.1
  cases later with
  | none =>
    cases second
    exact first
  | some text => exact ⟨second.1.trans type, type ▸ second.2⟩

theorem takes_of_replaceAll {entries : Dictionary String}
    (done : entries.foldlM (replaceOne aliases) module = .ok edited) {index : Nat} {old : Constant}
    (here : module.constants[index]? = some old) : ∃ new, edited.constants[index]? = some new ∧ Constant.Takes
      (lastValue? (entries.map fun entry => (aliases.resolve entry.1, entry.2)) (some index)) old new := by
  induction entries generalizing module old with
  | nil =>
    cases done
    exact ⟨old, here, rfl⟩
  | cons entry rest ih =>
    rw [List.foldlM_cons] at done
    obtain ⟨middle, first, others⟩ := Steps.bind_eq_ok.mp done
    obtain ⟨between, there, head⟩ := takes_of_replaceOne first here
    obtain ⟨new, found, tail⟩ := ih others there
    exact ⟨new, found, by simpa only [List.map_cons, lastValue?_cons] using takes_later head tail⟩

theorem apply_eq_ok : edits.apply module aliases = .ok edited ↔
    ∃ own renamed, edits.own module = .ok own ∧ (∀ entry ∈ edits.identifiers, entry.1 ∈ module.identifiers) ∧
      module.rename (own ++ edits.named module) = .ok renamed ∧
      edits.constants.foldlM (replaceOne aliases) renamed = .ok edited := by
  simp only [apply, Steps.bind_eq_ok, renames_eq_ok]
  constructor
  · rintro ⟨_, ⟨own, first, known, rfl⟩, renamed, named, done⟩
    exact ⟨own, renamed, first, known, named, done⟩
  · rintro ⟨own, renamed, first, known, named, done⟩
    exact ⟨_, ⟨own, first, known, rfl⟩, renamed, named, done⟩

theorem exists_apply : (∃ edited, edits.apply module aliases = .ok edited) ↔ edits.Accepted module aliases := by
  simp only [apply_eq_ok]
  constructor
  · rintro ⟨edited, own, renamed, first, known, named, done⟩
    refine ⟨known, ⟨own, renamed, first, named⟩, ?_⟩
    rw [← (sameShape_of_rename named).types]
    exact exists_replaceAll.mp ⟨edited, done⟩
  · rintro ⟨known, ⟨own, renamed, first, named⟩, suits⟩
    rw [← (sameShape_of_rename named).types] at suits
    obtain ⟨edited, done⟩ := exists_replaceAll.mpr suits
    exact ⟨edited, own, renamed, first, known, named, done⟩

theorem Outcome.unique {other : Module} (accepted : edits.Accepted module aliases)
    (first : edits.Outcome module aliases edited) (second : edits.Outcome module aliases other) : edited = other := by
  obtain ⟨own, _, given, _⟩ := accepted.renames
  have identifiers : edited.identifiers = other.identifiers := by
    refine List.ext_getElem? fun index => ?_
    cases here : module.identifiers[index]? with
    | none =>
      have beyond := List.getElem?_eq_none_iff.mp here
      rw [List.getElem?_eq_none (first.shape.identifiers ▸ beyond),
        List.getElem?_eq_none (second.shape.identifiers ▸ beyond)]
    | some old => rw [first.identifiers own given index old here, second.identifiers own given index old here]
  have constants : edited.constants = other.constants := by
    refine List.ext_getElem? fun index => ?_
    cases here : module.constants[index]? with
    | none =>
      have beyond := List.getElem?_eq_none_iff.mp here
      rw [List.getElem?_eq_none (first.shape.length_constants ▸ beyond),
        List.getElem?_eq_none (second.shape.length_constants ▸ beyond)]
    | some old =>
      obtain ⟨new, found, takes⟩ := first.constants index old here
      obtain ⟨new', found', takes'⟩ := second.constants index old here
      rw [found, found', Constant.Takes.unique takes takes']
  rw [first.shape.frame, second.shape.frame, identifiers, constants]

theorem outcome_of_apply (done : edits.apply module aliases = .ok edited) : edits.Outcome module aliases edited where
  shape := sameShape_of_apply done
  identifiers own' first' index old here := by
    obtain ⟨own, renamed, first, _, named, replaced⟩ := apply_eq_ok.mp done
    cases first'.symm.trans first
    rw [identifiers_of_replaceAll replaced, eq_of_rename named, Renames.getElem?_apply, here, Renames.lookup_settled,
      lastValue?_append, lastValue?_named here]
    rfl
  constants index old here := by
    obtain ⟨own, renamed, _, _, named, replaced⟩ := apply_eq_ok.mp done
    have kept : renamed.constants[index]? = some old := by rw [eq_of_rename named, here]
    exact takes_of_replaceAll replaced kept

theorem instantiate_eq_ok {bytes written : Bytes} : instantiate bytes edits aliases = .ok written ↔
    ∃ module edited, decode bytes = .ok module ∧ edits.apply module aliases = .ok edited ∧
      edited.encode = .ok written := by
  unfold instantiate
  cases read : decode bytes with
  | error cause => simp
  | ok module =>
    cases done : edits.apply module aliases with
    | error cause => simp [done]
    | ok edited =>
      have valid := (decode_eq_ok.mp read).1.of_sameShape (sameShape_of_apply done)
      cases checked : edited.encodeChecked with
      | error cause =>
        have refused : edited.encode ≠ .ok written := by
          rw [ne_eq, ← valid.encodeChecked_eq_ok, checked]
          exact nofun
        simp [done, checked, refused]
      | ok bytes => simp [done, checked, valid.encodeChecked_eq_ok.mp checked]

end

/-- Edits are accepted when the new name can be given, every old name is there, the renames go together, and every key
stands for a constant that its text suits. Then the identifiers change all at once, an entry counting before the new
name of the module, and a constant takes the text of the last key that stands for it. The bytes of the result, if it can
be written at all, hold it. -/
theorem apply_iff_accepted (edits : Edits) (aliases : Aliases) :
    (∀ module, (∃ edited, edits.apply module aliases = .ok edited) ↔ edits.Accepted module aliases) ∧
    (∀ module edited, edits.apply module aliases = .ok edited ↔
      edits.Accepted module aliases ∧ edits.Outcome module aliases edited) ∧
    ∀ bytes written, instantiate bytes edits aliases = .ok written ↔ ∃ module edited, decode bytes = .ok module ∧
      edits.apply module aliases = .ok edited ∧ edited.encode = .ok written ∧ decode written = .ok edited := by
  refine ⟨fun module => exists_apply, fun module edited => ?_, fun bytes written => ?_⟩
  · constructor
    · intro done
      exact ⟨exists_apply.mp ⟨edited, done⟩, outcome_of_apply done⟩
    · rintro ⟨accepted, outcome⟩
      obtain ⟨other, done⟩ := exists_apply.mpr accepted
      rw [done, (outcome_of_apply done).unique accepted outcome]
  · rw [instantiate_eq_ok]
    constructor
    · rintro ⟨module, edited, read, done, encoded⟩
      have valid := (decode_eq_ok.mp read).1.of_sameShape (sameShape_of_apply done)
      exact ⟨module, edited, read, done, encoded, valid.decode_of_encode encoded⟩
    · rintro ⟨module, edited, read, done, encoded, _⟩
      exact ⟨module, edited, read, done, encoded⟩

def silverEdits : Edits where
  moduleName := some "gold"
  identifiers := [("coin", "silver")]
  constants := [("GREETING", "Hi there"), ("constant_0", "Hello")]

def silver : Module where
  __ := coin
  identifiers := ["silver", "GOLD"]
  constants := [⟨.bytes, Value.ofBytes [0x48, 0x65, 0x6C, 0x6C, 0x6F]⟩] ++ coin.constants.tail

theorem apply_silverEdits : silverEdits.apply coin [("constant_0", "GREETING")] = .ok silver ∧
    silverEdits.Accepted coin [("constant_0", "GREETING")] ∧
    ∃ written, instantiate coinBytes silverEdits [("constant_0", "GREETING")] = .ok written ∧
      decode written = .ok silver := by
  obtain ⟨_, described, instantiated⟩ := apply_iff_accepted silverEdits [("constant_0", "GREETING")]
  have read : decode coinBytes = .ok coin := by decide +kernel
  have done : silverEdits.apply coin [("constant_0", "GREETING")] = .ok silver := by decide +kernel
  have encoded : silver.encode = .ok silver.frame.encode := by decide +kernel
  have back : decode silver.frame.encode = .ok silver := by decide +kernel
  exact ⟨done, ((described coin silver).mp done).1, _,
    (instantiated _ _).mpr ⟨coin, silver, read, done, encoded, back⟩, back⟩

end Edits

end MoveBytecode
