import MoveBytecode.Proofs.Module.Batch

/-! The identifiers of a module under edits. A batch of renames is accepted only if the identifiers that it gives are
names and stand nowhere else afterwards, so identifiers that differ from each other go on doing so, and only names come
in. -/

set_option autoImplicit false

namespace MoveBytecode

namespace Identifier

def IsLetter (c : Char) : Prop := 'A' ≤ c ∧ c ≤ 'Z' ∨ 'a' ≤ c ∧ c ≤ 'z'

def IsDigit (c : Char) : Prop := '0' ≤ c ∧ c ≤ '9'

/-- A letter or low line, and behind it any number of letters, digits and low lines. -/
def IsName (name : String) : Prop :=
  ∃ first rest, name.toList = first :: rest ∧ (IsLetter first ∨ first = '_') ∧
    ∀ c ∈ rest, IsLetter c ∨ IsDigit c ∨ c = '_'

theorem isAlpha_iff (c : Char) : c.isAlpha = true ↔ IsLetter c := by
  simp [Char.isAlpha, Char.isUpper, Char.isLower, IsLetter, Char.le_def]

theorem isDigit_iff (c : Char) : c.isDigit = true ↔ IsDigit c := by
  simp [Char.isDigit, IsDigit, Char.le_def]

theorem isValid_iff (name : String) : isValid name = true ↔ IsName name := by
  unfold isValid IsName
  cases name.toList with
  | nil => simp
  | cons first rest =>
    simp [startsName, continuesName, Char.isAlphanum, isAlpha_iff, isDigit_iff, or_assoc]

end Identifier

namespace Renames

variable {identifiers : List String} {length index : Nat} {name : String}

theorem fault?_eq_none : fault? length (index, name) = none ↔ index < length ∧ Identifier.IsName name := by
  rw [← Identifier.isValid_iff, fault?]
  split <;> simp_all

theorem clash?_eq_none :
    clash? identifiers (index, name) = none ↔ ∀ place, identifiers[place]? = some name → place = index := by
  simp only [clash?, Option.map_eq_none_iff, List.find?_eq_none, List.mem_zipIdx_iff_getElem?, Prod.forall,
    decide_eq_true_eq, not_and]
  constructor
  · intro apart place here
    by_contra other
    exact apart name place here other rfl
  · intro alone other place here apart same
    exact apart (alone place (same ▸ here))

end Renames

/-- Identifiers of which the later are the earlier ones but for new names, and as distinct. -/
structure Renamed (before after : List String) : Prop where
  length : after.length = before.length
  distinct : before.Nodup → after.Nodup
  fresh : ∀ (index : Nat) (name : String), after[index]? = some name →
    before[index]? = some name ∨ Identifier.IsName name

namespace Renamed

variable {before middle after : List String}

theorem refl (names : List String) : Renamed names names := ⟨rfl, id, fun _ _ => .inl⟩

theorem trans (first : Renamed before middle) (second : Renamed middle after) : Renamed before after where
  length := second.length.trans first.length
  distinct := second.distinct ∘ first.distinct
  fresh index name here := by
    rcases second.fresh index name here with kept | new
    · exact first.fresh index name kept
    · exact .inr new

end Renamed

theorem place_unique {names : List String} {name : String} {index place : Nat} (distinct : names.Nodup)
    (here : names[index]? = some name) (there : names[place]? = some name) : index = place :=
  (List.getElem?_inj (List.getElem?_eq_some_iff.mp here).1 distinct).mp (here.trans there.symm)

theorem nodup_of_kept_or_alone {before after : List String} (distinct : before.Nodup)
    (cause : ∀ (index : Nat) (name : String), after[index]? = some name →
      before[index]? = some name ∨ ∀ place, after[place]? = some name → place = index) : after.Nodup := by
  rw [List.nodup_iff_getElem?_ne_getElem?] at distinct ⊢
  intro index other earlier inside same
  have there : after[other]? = some after[other] := List.getElem?_eq_getElem inside
  have here := same.trans there
  rcases cause index _ here with kept | alone
  · rcases cause other _ there with kept' | alone
    · have inside' := (List.getElem?_eq_some_iff.mp kept').1
      exact distinct index other earlier inside' (kept.trans kept'.symm)
    · exact absurd (alone index here) (Nat.ne_of_lt earlier)
  · exact absurd (alone other there) (Nat.ne_of_gt earlier)

namespace Module

variable {module renamed : Module} {renames : Renames}

/-- Every name that a batch gives was found to be one, and found nowhere else among the names that result. -/
theorem renamed_of_rename (done : module.rename renames = .ok renamed) :
    Renamed module.identifiers renamed.identifiers := by
  obtain ⟨accepted, made⟩ := rename_eq_ok.mp done
  obtain ⟨faultless, apart⟩ := Renames.refusal?_eq_none.mp accepted
  -- A name that is there afterwards was there before or was given.
  have cause (index : Nat) (name : String) (here : renamed.identifiers[index]? = some name) :
      module.identifiers[index]? = some name ∨ (index, name) ∈ renames.settled := by
    rw [made, Renames.getElem?_apply] at here
    obtain ⟨old, was, result⟩ := Option.map_eq_some_iff.mp here
    cases given : renames.settled.lookup index with
    | none => exact .inl (by simpa [given, was] using result)
    | some new =>
      obtain rfl : new = name := by simpa [given] using result
      exact .inr (mem_of_lookup given)
  refine ⟨(sameShape_of_rename done).identifiers, fun distinct => ?_, fun index name here => ?_⟩
  · refine nodup_of_kept_or_alone distinct fun index name here => (cause index name here).imp_right fun given => ?_
    rw [made]
    exact Renames.clash?_eq_none.mp (apart _ given)
  · exact (cause index name here).imp_right fun given => (Renames.fault?_eq_none.mp (faultless _ given)).2

end Module

namespace Edit

open MoveBytecode.Module

theorem renamed_of_perform {edit : Edit} {module edited : Module} (done : edit.perform module = .ok edited) :
    Renamed module.identifiers edited.identifiers := by
  cases edit with
  | renameIdentifier index name => exact renamed_of_rename done
  | renameIdentifiers renames => exact renamed_of_rename done
  | renameSelf name =>
    obtain ⟨renames, _, done⟩ := renameSelf_eq_ok.mp done
    exact renamed_of_rename done
  | replaceConstant index text =>
    obtain ⟨constant, value, _, _, made⟩ := replaceConstant_eq_ok.mp done
    rw [made]
    exact .refl module.identifiers
  | instantiate edits aliases =>
    obtain ⟨renames, _, done⟩ := Steps.bind_eq_ok.mp done
    obtain ⟨renamed, named, done⟩ := Steps.bind_eq_ok.mp done
    rw [Edits.identifiers_of_replaceAll done]
    exact renamed_of_rename named

theorem renamed_after (edit : Edit) (module : Module) :
    Renamed module.identifiers (edit.after module).identifiers :=
  related_after (fun before after => Renamed before.identifiers after.identifiers) (.refl module.identifiers)
    renamed_of_perform

end Edit

namespace Module

def states (module : Module) (edits : List Edit) : List Module :=
  edits.scanl (fun state edit => edit.after state) module

theorem renamed_of_mem_states {module state : Module} {edits : List Edit} (reached : state ∈ module.states edits) :
    Renamed module.identifiers state.identifiers := by
  induction edits generalizing module with
  | nil =>
    obtain rfl : state = module := by simpa [states] using reached
    exact .refl state.identifiers
  | cons edit rest ih =>
    rw [states, List.scanl_cons] at reached
    rcases List.mem_cons.mp reached with rfl | later
    · exact .refl state.identifiers
    · exact (edit.renamed_after module).trans (ih later)

/-- Edits, refused or not, never give two places of a module the same identifier, and they bring in names only. -/
theorem identifiers_of_states {module : Module} (distinct : module.identifiers.Nodup) (edits : List Edit) :
    ∀ state ∈ module.states edits, state.identifiers.Nodup ∧
      state.identifiers.length = module.identifiers.length ∧
      ∀ (index : Nat) (old new : String), module.identifiers[index]? = some old →
        state.identifiers[index]? = some new → new ≠ old → Identifier.IsName new := by
  intro state reached
  have renamed := renamed_of_mem_states reached
  refine ⟨renamed.distinct distinct, renamed.length, fun index old new was is differs => ?_⟩
  rcases renamed.fresh index new is with kept | name
  · rw [was] at kept
    exact absurd (Option.some.inj kept).symm differs
  · exact name

def recasts : List Edit :=
  [.renameIdentifiers [(0, "COIN"), (1, "coin")], .renameIdentifier 0 "coin",
    .instantiate Edits.silverEdits [("constant_0", "GREETING")]]

theorem identifiers_of_states_coin : coin.identifiers.Nodup ∧
    (coin.states recasts).map Module.identifiers =
      [["coin", "COIN"], ["COIN", "coin"], ["COIN", "coin"], ["gold", "silver"]] ∧
    ∀ state ∈ coin.states recasts, state.identifiers.Nodup ∧
      ∀ name, state.identifiers[0]? = some name → name ≠ "coin" → Identifier.IsName name := by
  have distinct : coin.identifiers.Nodup := by decide
  refine ⟨distinct, by decide +kernel, fun state reached => ?_⟩
  obtain ⟨apart, _, fresh⟩ := identifiers_of_states distinct recasts state reached
  exact ⟨apart, fun name here differs => fresh 0 "coin" name rfl here differs⟩

end Module

end MoveBytecode
