import MoveBytecode.Proofs.Module.Rename

/-! A new name for a module, and the way back to the old one. The identifier that is the module's name in capitals, its
witness, follows the name; it is found again by the new name, so that the old one can be restored. -/

set_option autoImplicit false

namespace MoveBytecode

namespace Identifier

theorem isLetter_toUpper {c : Char} (letter : IsLetter c) : IsLetter c.toUpper := by
  unfold Char.toUpper
  simp only [IsLetter, Char.le_def] at letter ⊢
  split <;> grind

theorem toUpper_of_not_isLetter {c : Char} (other : ¬IsLetter c) : c.toUpper = c := by
  unfold Char.toUpper
  simp only [IsLetter, Char.le_def] at other
  split <;> grind

theorem isName_upperCase {name : String} (isName : IsName name) : IsName (upperCase name) := by
  obtain ⟨first, rest, split, starts, continues⟩ := isName
  refine ⟨first.toUpper, rest.map Char.toUpper, ?_, ?_, fun c member => ?_⟩
  · rw [upperCase, String.toList_ofList, split, List.map_cons]
  · rcases starts with letter | rfl
    · exact .inl (isLetter_toUpper letter)
    · exact .inr rfl
  · obtain ⟨old, inside, rfl⟩ := List.mem_map.mp member
    by_cases letter : IsLetter old
    · exact .inl (isLetter_toUpper letter)
    · rw [toUpper_of_not_isLetter letter]
      exact continues old inside

end Identifier

namespace Module

open Identifier

/-- A place whose identifier is the module's name in capitals, if it is not the place of the name. -/
def IsWitness (module : Module) (own : Nat) (old : String) (place : Nat) : Prop :=
  place ≠ own ∧ module.identifiers[place]? = some (upperCase old)

/-- A name that no identifier has but the module's own and the witness, which both get a new one. If there is a witness,
the same holds of the name in capitals, which is another one then. -/
structure Admits (module : Module) (own : Nat) (old name : String) : Prop where
  isName : IsName name
  free : ∀ place, module.identifiers[place]? = some name → place = own ∨ module.IsWitness own old place
  capitals : ∀ witness, module.IsWitness own old witness → upperCase name ≠ name ∧
    ∀ place, module.identifiers[place]? = some (upperCase name) → place = own ∨ place = witness

/-- Identifiers with a new name for the module, which the witness follows. -/
structure NamedAnew (module : Module) (own : Nat) (old name : String) (identifiers : List String) : Prop where
  self : identifiers[own]? = some name
  witness : ∀ place, module.IsWitness own old place → identifiers[place]? = some (upperCase name)
  others : ∀ place, place ≠ own → ¬module.IsWitness own old place → identifiers[place]? = module.identifiers[place]?

/-- No identifier becomes a witness by the new name: there was one before, or no other identifier is that name in
capitals. -/
def KeepsWitness (module : Module) (own : Nat) (old name : String) : Prop :=
  (∃ place, module.IsWitness own old place) ∨
    ∀ place, module.identifiers[place]? = some (upperCase name) → place = own

variable {module renamed : Module} {own place : Nat} {old name : String}

def witness? (module : Module) (index : Nat) (name : String) : Option Nat :=
  (module.identifierIndex? (upperCase name)).filter (· ≠ index)

def ownRenames (module : Module) (own : Nat) (old name : String) : Renames :=
  (own, name) :: (module.witness? own old).toList.map fun place => (place, upperCase name)

theorem selfRenames_eq_ok {renames : Renames} : module.selfRenames name = .ok renames ↔ ∃ own old,
    module.selfNameIndex = .ok (some own) ∧ module.identifiers[own]? = some old ∧
      renames = module.ownRenames own old name := by
  unfold selfRenames
  cases found : module.selfNameIndex with
  | error cause => simp
  | ok index? =>
    cases index? with
    | none => simp
    | some index =>
      cases here : module.identifiers[index]? with
      | none => simp [here]
      | some old => simp [here, ownRenames, witness?, eq_comm]

theorem renameSelf_eq (found : module.selfNameIndex = .ok (some own)) (here : module.identifiers[own]? = some old)
    (name : String) : module.renameSelf name = module.rename (module.ownRenames own old name) := by
  have renames : module.selfRenames name = .ok (module.ownRenames own old name) :=
    selfRenames_eq_ok.mpr ⟨own, old, found, here, rfl⟩
  rw [renameSelf_eq_bind, renames]
  rfl

theorem lastValue?_ownRenames (module : Module) (own : Nat) (old name : String) (index : Nat) :
    lastValue? (module.ownRenames own old name) index =
      if index = own then some name else if module.witness? own old = some index then some (upperCase name)
      else none := by
  rw [ownRenames, lastValue?_cons]
  cases found : module.witness? own old with
  | none => simp
  | some place =>
    have elsewhere : place ≠ own := of_decide_eq_true (Option.filter_eq_some_iff.mp found).2
    by_cases first : index = own
    · simp [lastValue?_cons, first, elsewhere.symm]
    · by_cases second : index = place
      · simp [lastValue?_cons, second, elsewhere]
      · simp [lastValue?_cons, first, second, Ne.symm second]

theorem given_own (module : Module) (own : Nat) (old name : String) :
    lastValue? (module.ownRenames own old name) own = some name := by
  rw [lastValue?_ownRenames, if_pos rfl]

section
variable (distinct : module.identifiers.Nodup)
include distinct

theorem identifierIndex?_eq_some :
    module.identifierIndex? name = some place ↔ module.identifiers[place]? = some name := by
  refine ⟨getElem?_of_identifierIndex?, fun here => ?_⟩
  obtain ⟨first, found⟩ := Option.isSome_iff_exists.mp (isSome_identifierIndex?.mpr (List.mem_of_getElem? here))
  rw [found, place_unique distinct (getElem?_of_identifierIndex? found) here]

theorem witness?_eq_some : module.witness? own old = some place ↔ module.IsWitness own old place := by
  unfold witness? IsWitness
  rw [Option.filter_eq_some_iff, decide_eq_true_eq, and_comm, identifierIndex?_eq_some distinct]

theorem ownRenames_given {index : Nat} {new : String} :
    lastValue? (module.ownRenames own old name) index = some new ↔
      index = own ∧ new = name ∨ module.IsWitness own old index ∧ new = upperCase name := by
  rw [lastValue?_ownRenames, ← witness?_eq_some distinct]
  by_cases first : index = own
  · subst first
    have other : module.witness? index old ≠ some index := fun found => ((witness?_eq_some distinct).mp found).1 rfl
    simp [other, eq_comm]
  · by_cases second : module.witness? own old = some index
    · simp [first, second, eq_comm]
    · simp [first, second]

theorem given_witness (isWitness : module.IsWitness own old place) (name : String) :
    lastValue? (module.ownRenames own old name) place = some (upperCase name) :=
  (ownRenames_given distinct).mpr (.inr ⟨isWitness, rfl⟩)

theorem IsWitness.unique {other : Nat} (isWitness : module.IsWitness own old place)
    (isWitness' : module.IsWitness own old other) : place = other :=
  place_unique distinct isWitness.2 isWitness'.2

variable (here : module.identifiers[own]? = some old)
include here

theorem namedAnew_ownRenames (name : String) :
    module.NamedAnew own old name ((module.ownRenames own old name).substitute module.identifiers) where
  self := by
    rw [Renames.getElem?_substitute, given_own, here]
    rfl
  witness place isWitness := by
    rw [Renames.getElem?_substitute, given_witness distinct isWitness, isWitness.2]
    rfl
  others place first second := by
    have kept : lastValue? (module.ownRenames own old name) place = none := by
      rw [lastValue?_ownRenames, if_neg first, if_neg (mt (witness?_eq_some distinct).mp second)]
    rw [Renames.getElem?_substitute, kept]
    exact Option.map_id'

theorem sound_ownRenames (isName : IsName name) (index : Nat) (new : String)
    (given : lastValue? (module.ownRenames own old name) index = some new) :
    Renames.Sound module.identifiers.length (index, new) := by
  cases (ownRenames_given distinct).mp given with
  | inl given =>
    obtain ⟨rfl, rfl⟩ := given
    exact ⟨(List.getElem?_eq_some_iff.mp here).1, isName⟩
  | inr given =>
    obtain ⟨isWitness, rfl⟩ := given
    exact ⟨(List.getElem?_eq_some_iff.mp isWitness.2).1, isName_upperCase isName⟩

end

theorem NamedAnew.cases {identifiers : List String} (anew : module.NamedAnew own old name identifiers) {new : String}
    (there : identifiers[place]? = some new) : place = own ∧ new = name ∨
      module.IsWitness own old place ∧ new = upperCase name ∨
      place ≠ own ∧ ¬module.IsWitness own old place ∧ module.identifiers[place]? = some new := by
  by_cases first : place = own
  · subst first
    exact .inl ⟨rfl, Option.some.inj (there.symm.trans anew.self)⟩
  · by_cases second : module.IsWitness own old place
    · exact .inr (.inl ⟨second, Option.some.inj (there.symm.trans (anew.witness place second))⟩)
    · exact .inr (.inr ⟨first, second, (anew.others place first second).symm.trans there⟩)

/-- A place that had a name once which only one place has afterwards is that place, or got another name. -/
theorem NamedAnew.kept_or_changed {identifiers : List String} (anew : module.NamedAnew own old name identifiers)
    {new : String} {index : Nat} (alone : Renames.Apart identifiers (index, new))
    (before : module.identifiers[place]? = some new) :
    place = own ∨ module.IsWitness own old place ∨ place = index := by
  by_cases first : place = own
  · exact .inl first
  · by_cases second : module.IsWitness own old place
    · exact .inr (.inl second)
    · exact .inr (.inr (alone place ((anew.others place first second).trans before)))

theorem NamedAnew.isWitness_iff (anew : module.NamedAnew own old name renamed.identifiers)
    (distinct : renamed.identifiers.Nodup) (keeps : module.KeepsWitness own old name) :
    renamed.IsWitness own name place ↔ module.IsWitness own old place := by
  constructor
  · rintro ⟨first, there⟩
    by_contra second
    cases keeps with
    | inl held =>
      obtain ⟨witness, isWitness⟩ := held
      have same := place_unique distinct there (anew.witness witness isWitness)
      exact second (same ▸ isWitness)
    | inr free => exact first (free place ((anew.others place first second).symm.trans there))
  · intro isWitness
    exact ⟨isWitness.1, anew.witness place isWitness⟩

section
variable (distinct : module.identifiers.Nodup) (here : module.identifiers[own]? = some old)
include distinct here

theorem admits_of_accepted (accepted : (module.ownRenames own old name).Accepted module.identifiers) :
    module.Admits own old name := by
  have anew := namedAnew_ownRenames distinct here name
  have given := given_own module own old name
  have alone := accepted.apart own name given
  refine ⟨(accepted.sound own name given).2, fun place before => ?_, fun witness isWitness => ?_⟩
  · rcases anew.kept_or_changed alone before with first | second | first
    · exact .inl first
    · exact .inr second
    · exact .inl first
  · -- Otherwise the witness would have the very name that the module has now.
    have other : upperCase name ≠ name := by
      intro same
      have now := anew.witness witness isWitness
      rw [same] at now
      exact isWitness.1 (alone witness now)
    have alone' := accepted.apart witness _ (given_witness distinct isWitness name)
    refine ⟨other, fun place before => ?_⟩
    rcases anew.kept_or_changed alone' before with first | second | same
    · exact .inl first
    · exact .inr (second.unique distinct isWitness)
    · exact .inr same

theorem accepted_of_admits (admits : module.Admits own old name) :
    (module.ownRenames own old name).Accepted module.identifiers := by
  have anew := namedAnew_ownRenames distinct here name
  refine ⟨sound_ownRenames distinct here admits.isName, fun index new given place there => ?_⟩
  have now := anew.cases there
  -- Another place with a new name had it before, which is what the module does not admit.
  cases (ownRenames_given distinct).mp given with
  | inl given =>
    obtain ⟨rfl, rfl⟩ := given
    rcases now with ⟨same, _⟩ | ⟨isWitness, capitals⟩ | ⟨_, second, before⟩
    · exact same
    · exact absurd capitals.symm (admits.capitals place isWitness).1
    · exact (admits.free place before).resolve_right second
  | inr given =>
    obtain ⟨isWitness, rfl⟩ := given
    rcases now with ⟨_, capitals⟩ | ⟨isWitness', _⟩ | ⟨first, _, before⟩
    · exact absurd capitals (admits.capitals index isWitness).1
    · exact isWitness'.unique distinct isWitness
    · exact ((admits.capitals index isWitness).2 place before).resolve_left first

variable (found : module.selfNameIndex = .ok (some own))
include found

theorem exists_renameSelf : (∃ renamed, module.renameSelf name = .ok renamed) ↔ module.Admits own old name := by
  simp only [renameSelf_eq found here, rename_eq_ok_iff]
  constructor
  · rintro ⟨_, accepted, _⟩
    exact admits_of_accepted distinct here accepted
  · intro admits
    exact ⟨_, accepted_of_admits distinct here admits, rfl⟩

variable (done : module.renameSelf name = .ok renamed)
include done

theorem namedAnew_of_renameSelf : module.NamedAnew own old name renamed.identifiers ∧
    renamed = { module with identifiers := renamed.identifiers } := by
  rw [renameSelf_eq found here] at done
  obtain ⟨_, rfl⟩ := rename_eq_ok_iff.mp done
  exact ⟨namedAnew_ownRenames distinct here name, rfl⟩

theorem selfNameIndex_of_renameSelf : renamed.selfNameIndex = .ok (some own) := by
  rw [(namedAnew_of_renameSelf distinct here found done).2]
  exact found

theorem selfName_of_renameSelf : renamed.selfName = .ok (some name) := by
  rw [selfName, selfNameIndex_of_renameSelf distinct here found done]
  exact congrArg Except.ok (namedAnew_of_renameSelf distinct here found done).1.self

theorem renameSelf_back (isName : IsName old) (keeps : module.KeepsWitness own old name) :
    renamed.renameSelf old = .ok module := by
  obtain ⟨anew, made⟩ := namedAnew_of_renameSelf distinct here found done
  have performed : (Edit.renameSelf name).perform module = .ok renamed := done
  have distinct' := (Edit.renamed_of_perform performed).distinct distinct
  have found' := selfNameIndex_of_renameSelf distinct here found done
  have back := namedAnew_ownRenames distinct' anew.self old
  -- Place by place: the name, its witness, which is found again, and all others, which never changed.
  have restored : (renamed.ownRenames own name old).substitute renamed.identifiers = module.identifiers := by
    refine List.ext_getElem? fun place => ?_
    by_cases first : place = own
    · rw [first, back.self, here]
    · by_cases second : module.IsWitness own old place
      · rw [back.witness place ((anew.isWitness_iff distinct' keeps).mpr second), second.2]
      · have second' := mt (anew.isWitness_iff distinct' keeps).mp second
        rw [back.others place first second', anew.others place first second]
  have sound := sound_ownRenames distinct' anew.self isName
  rw [renameSelf_eq found' anew.self]
  exact rename_eq_ok_iff.mpr ⟨Renames.accepted_of_nodup sound (restored ▸ distinct), by rw [restored, made]⟩

end

/-- A module can be given every name that it admits, and no other. That changes its name and its witness only. The old
name, where it is a name, undoes it unless an identifier that was no witness before has become one. -/
theorem renameSelf_iff (distinct : module.identifiers.Nodup) (found : module.selfNameIndex = .ok (some own))
    (here : module.identifiers[own]? = some old) (name : String) :
    ((∃ renamed, module.renameSelf name = .ok renamed) ↔ module.Admits own old name) ∧
    ∀ renamed, module.renameSelf name = .ok renamed →
      renamed.selfName = .ok (some name) ∧ module.NamedAnew own old name renamed.identifiers ∧
      renamed = { module with identifiers := renamed.identifiers } ∧
      (IsName old → module.KeepsWitness own old name → renamed.renameSelf old = .ok module) := by
  refine ⟨exists_renameSelf distinct here found, fun renamed done => ?_⟩
  obtain ⟨anew, made⟩ := namedAnew_of_renameSelf distinct here found done
  exact ⟨selfName_of_renameSelf distinct here found done, anew, made, renameSelf_back distinct here found done⟩

def golden : Module where
  __ := coin
  identifiers := ["gold", "GOLD"]

theorem renameSelf_golden : coin.Admits 0 "coin" "gold" ∧ golden.selfName = .ok (some "gold") ∧
    golden.renameSelf "coin" = .ok coin := by
  have distinct : coin.identifiers.Nodup := by decide
  have found : coin.selfNameIndex = .ok (some 0) := by decide +kernel
  have here : coin.identifiers[0]? = some "coin" := rfl
  have done : coin.renameSelf "gold" = .ok golden := by decide +kernel
  obtain ⟨admitted, results⟩ := renameSelf_iff distinct found here "gold"
  obtain ⟨named, _, _, back⟩ := results golden done
  have isName : IsName "coin" := (isValid_iff "coin").mp (by decide)
  have witness : coin.IsWitness 0 "coin" 1 := ⟨by decide, by decide⟩
  exact ⟨admitted.mp ⟨golden, done⟩, named, back isName (.inl ⟨1, witness⟩)⟩

end Module

end MoveBytecode
