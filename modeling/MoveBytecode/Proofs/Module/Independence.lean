import MoveBytecode.Proofs.Module.Reachable

/-! Edits in either order. Renames neither read constants nor write them, and whether a text suits a constant is told by
the type of the constant, which no edit changes; so an edit cannot tell which edits of other parts were made before. -/

set_option autoImplicit false

namespace MoveBytecode

def Constant.reading (text : String) (constant : Constant) : Constant :=
  match Value.parse constant.ty text with
  | .ok value => { constant with value }
  | .error _ => constant

namespace Constant

variable {constant : Constant} {text : String} {value : Value}

theorem reading_of_parse (parsed : Value.parse constant.ty text = .ok value) :
    constant.reading text = { constant with value } := by
  simp [reading, parsed]

theorem reading_of_error {error : Value.ParseError} (refused : Value.parse constant.ty text = .error error) :
    constant.reading text = constant := by
  simp [reading, refused]

theorem ty_reading (constant : Constant) (text : String) : (constant.reading text).ty = constant.ty := by
  unfold reading
  split <;> rfl

theorem reading_reading (earlier : String) (parsed : Value.parse constant.ty text = .ok value) :
    (constant.reading earlier).reading text = constant.reading text := by
  have parsed' : Value.parse (constant.reading earlier).ty text = .ok value := by rwa [ty_reading]
  rw [reading_of_parse parsed, reading_of_parse parsed', ty_reading]

end Constant

namespace Module

variable {module : Module} {change : List Constant → List Constant}

def mapConstants (change : List Constant → List Constant) (module : Module) : Module :=
  { module with constants := change module.constants }

theorem rename_mapConstants (renames : Renames) :
    (module.mapConstants change).rename renames = (module.rename renames).map (mapConstants change) := by
  have names : (module.mapConstants change).identifiers = module.identifiers := rfl
  simp only [rename_eq, names]
  cases renames.refusal? module.identifiers <;> rfl

theorem renameSelf_mapConstants (name : String) :
    (module.mapConstants change).renameSelf name = (module.renameSelf name).map (mapConstants change) := by
  -- The renames are made of identifiers, handles and the index behind the tables.
  have renames : (module.mapConstants change).selfRenames name = module.selfRenames name := rfl
  simp only [renameSelf_eq_bind, renames]
  cases module.selfRenames name with
  | error error => rfl
  | ok renames => exact rename_mapConstants renames

end Module

namespace Edit

open MoveBytecode.Module

def result (edit : Edit) (module : Module) : Except EditError Unit := (edit.perform module).map fun _ => ()

def IsRename : Edit → Prop
  | renameIdentifier _ _ | renameIdentifiers _ | renameSelf _ => True
  | replaceConstant _ _ | instantiate _ _ => False

/-- Made in either order, two edits lead to one module, and the same is told of each. -/
structure Commutes (first second : Edit) (module : Module) : Prop where
  final : second.after (first.after module) = first.after (second.after module)
  first_result : first.result (second.after module) = first.result module
  second_result : second.result (first.after module) = second.result module

variable {edit : Edit} {module edited : Module} {index other : Nat} {text : String}

theorem result_eq_ok : edit.result module = .ok () ↔ ∃ edited, edit.perform module = .ok edited := by
  unfold result
  cases edit.perform module <;> simp [Except.map]

section
variable {change : List Constant → List Constant}

theorem perform_mapConstants (isRename : edit.IsRename) :
    edit.perform (module.mapConstants change) = (edit.perform module).map (mapConstants change) := by
  cases edit with
  | renameIdentifier index name => exact rename_mapConstants _
  | renameIdentifiers renames => exact rename_mapConstants renames
  | renameSelf name => exact renameSelf_mapConstants name
  | replaceConstant index text => cases isRename
  | instantiate edits aliases => cases isRename

theorem after_mapConstants (isRename : edit.IsRename) :
    edit.after (module.mapConstants change) = (edit.after module).mapConstants change := by
  rw [after_eq, after_eq, perform_mapConstants isRename]
  cases edit.perform module <;> rfl

theorem result_mapConstants (isRename : edit.IsRename) :
    edit.result (module.mapConstants change) = edit.result module := by
  unfold result
  rw [perform_mapConstants isRename]
  cases edit.perform module <;> rfl

end

theorem after_replaceConstant (index : Nat) (text : String) (module : Module) :
    (replaceConstant index text).after module =
      module.mapConstants fun constants => constants.modify index (Constant.reading text) := by
  rw [mapConstants, List.modify_eq_set_getElem?]
  simp only [after_eq, perform, replaceConstant_eq]
  cases found : module.constants[index]? with
  | none => rfl
  | some constant =>
    cases parsed : Value.parse constant.ty text with
    | ok value => simp [parsed, Constant.reading_of_parse parsed]
    | error error => simp [parsed, Constant.reading_of_error parsed, set_of_getElem? found]

theorem result_replaceConstant (same : module.SameShape edited) (index : Nat) (text : String) :
    (replaceConstant index text).result edited = (replaceConstant index text).result module := by
  have types : edited.constants[index]?.map Constant.ty = module.constants[index]?.map Constant.ty := by
    rw [← List.getElem?_map, ← List.getElem?_map, same.types]
  simp only [result, perform, replaceConstant_eq, same.length_constants]
  cases found : module.constants[index]? with
  | none =>
    have found' : edited.constants[index]? = none := by simpa [found] using types
    rw [found']
  | some constant =>
    obtain ⟨constant', found', type⟩ : ∃ constant', edited.constants[index]? = some constant' ∧
        constant'.ty = constant.ty := by simpa [found] using types
    simp only [found', type]
    cases Value.parse constant.ty text <;> rfl

theorem commutes_of_isRename (isRename : edit.IsRename) (index : Nat) (text : String) (module : Module) :
    Commutes edit (replaceConstant index text) module where
  final := by
    rw [after_replaceConstant, after_replaceConstant, after_mapConstants isRename]
  first_result := by
    rw [after_replaceConstant, result_mapConstants isRename]
  second_result := result_replaceConstant (edit.sameShape_after module) index text

theorem commutes_of_ne (apart : index ≠ other) (text text' : String) (module : Module) :
    Commutes (replaceConstant index text) (replaceConstant other text') module where
  final := by
    simp only [after_replaceConstant, mapConstants]
    rw [List.modify_modify_ne _ _ _ apart]
  first_result := result_replaceConstant (sameShape_after _ module) index text
  second_result := result_replaceConstant (sameShape_after _ module) other text'

theorem after_replaceConstant_again (made : (replaceConstant index text).result module = .ok ()) (earlier : String) :
    (replaceConstant index text).after ((replaceConstant index earlier).after module) =
      (replaceConstant index text).after module := by
  obtain ⟨edited, done⟩ := result_eq_ok.mp made
  obtain ⟨constant, value, found, parsed, _⟩ := replaceConstant_eq_ok.mp done
  simp only [after_replaceConstant, mapConstants]
  rw [List.modify_modify_eq, List.modify_eq_set_getElem?, List.modify_eq_set_getElem?, found]
  simp [Constant.reading_reading earlier parsed]

/-- A rename and a replacement can be made in either order, and so can replacements of two constants. Of two replacements
of one constant the later does what it would have done alone. -/
theorem edits_independent (module : Module) :
    (∀ edit index text, IsRename edit → Commutes edit (replaceConstant index text) module) ∧
    (∀ index other text text', index ≠ other →
      Commutes (replaceConstant index text) (replaceConstant other text') module) ∧
    ∀ index earlier text,
      (replaceConstant index text).result ((replaceConstant index earlier).after module) =
        (replaceConstant index text).result module ∧
      ((replaceConstant index text).result module = .ok () →
        (replaceConstant index text).after ((replaceConstant index earlier).after module) =
          (replaceConstant index text).after module) := by
  refine ⟨fun edit index text isRename => commutes_of_isRename isRename index text module,
    fun index other text text' apart => commutes_of_ne apart text text' module, fun index earlier text => ⟨?_, ?_⟩⟩
  · exact result_replaceConstant (sameShape_after _ module) index text
  · exact fun made => after_replaceConstant_again made earlier

theorem edits_independent_coin :
    (replaceConstant 0 "Hello").after ((renameSelf "gold").after coin) = gold ∧
    (renameSelf "gold").after ((replaceConstant 0 "Hello").after coin) = gold ∧
    (replaceConstant 0 "Hello").after ((replaceConstant 0 "Hi there").after coin) =
      (replaceConstant 0 "Hello").after coin := by
  obtain ⟨renames, _, again⟩ := edits_independent coin
  have made : (replaceConstant 0 "Hello").after ((renameSelf "gold").after coin) = gold := by decide +kernel
  exact ⟨made, (renames (renameSelf "gold") 0 "Hello" trivial).final.symm.trans made,
    (again 0 "Hi there" "Hello").2 (by decide +kernel)⟩

end Edit

end MoveBytecode
