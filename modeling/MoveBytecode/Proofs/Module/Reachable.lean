import MoveBytecode.Proofs.Module.Edits

/-! The modules that edits can lead to. One edit keeps what a module that was read has, whether it succeeds or is
refused, and so does any number of them: an edited module is written and read back as it is, and can only grow too
large for the format. -/

set_option autoImplicit false

namespace MoveBytecode

inductive Edit where
  | renameIdentifier (index : Nat) (name : String)
  | renameIdentifiers (renames : Renames)
  | renameSelf (name : String)
  | replaceConstant (index : Nat) (text : String)
  | instantiate (edits : Edits) (aliases : Aliases)

namespace Edit

def perform (module : Module) : Edit → Except EditError Module
  | renameIdentifier index name => module.renameIdentifier index name
  | renameIdentifiers renames => module.rename renames
  | renameSelf name => module.renameSelf name
  | replaceConstant index text => module.replaceConstant index text
  | instantiate edits aliases => edits.apply module aliases

def editor : Edit → Editor
  | renameIdentifier index name => Editor.rename [(index, name)]
  | renameIdentifiers renames => Editor.rename renames
  | renameSelf name => Editor.renameSelf name
  | replaceConstant index text => Editor.replaceConstant index text
  | instantiate edits aliases => Editor.ofCopy (edits.apply · aliases)

theorem outcome_editor (edit : Edit) (module : Module) : edit.editor.outcome module = edit.perform module := by
  cases edit with
  | instantiate edits aliases => exact Editor.outcome_ofCopy _ module
  | _ => rfl

theorem untouched_editor (edit : Edit) : edit.editor.Untouched := by
  cases edit with
  | renameIdentifier index name => exact Editor.untouched_rename _
  | renameIdentifiers renames => exact Editor.untouched_rename renames
  | renameSelf name => exact Editor.untouched_renameSelf name
  | replaceConstant index text => exact Editor.untouched_replaceConstant index text
  | instantiate edits aliases => exact Editor.untouched_ofCopy _

/-- The module as an edit leaves it, made or refused. -/
def after (edit : Edit) (module : Module) : Module := edit.editor.left module

theorem after_of_ok {edit : Edit} {module edited : Module} (done : edit.perform module = .ok edited) :
    edit.after module = edited := by
  rw [← outcome_editor] at done
  exact Editor.left_of_ok done

theorem after_of_error {edit : Edit} {module : Module} {error : EditError}
    (refused : edit.perform module = .error error) : edit.after module = module := by
  rw [← outcome_editor] at refused
  exact edit.untouched_editor.left_of_error refused

theorem after_eq (edit : Edit) (module : Module) : edit.after module =
    match edit.perform module with
    | .ok edited => edited
    | .error _ => module := by
  split
  · next outcome => exact after_of_ok outcome
  · next outcome => exact after_of_error outcome

theorem related_after (relation : Module → Module → Prop) {edit : Edit} {module : Module} (refl : relation module module)
    (done : ∀ {edited}, edit.perform module = .ok edited → relation module edited) :
    relation module (edit.after module) := by
  cases outcome : edit.perform module with
  | ok edited =>
    rw [after_of_ok outcome]
    exact done outcome
  | error error =>
    rw [after_of_error outcome]
    exact refl

theorem sameShape_of_perform {edit : Edit} {module edited : Module} (done : edit.perform module = .ok edited) :
    module.SameShape edited := by
  cases edit with
  | renameIdentifier index name => exact Module.sameShape_of_rename done
  | renameIdentifiers renames => exact Module.sameShape_of_rename done
  | renameSelf name =>
    obtain ⟨renames, _, done⟩ := Module.renameSelf_eq_ok.mp done
    exact Module.sameShape_of_rename done
  | replaceConstant index text => exact Module.sameShape_of_replaceConstant done
  | instantiate edits aliases => exact Edits.sameShape_of_apply done

theorem sameShape_after (edit : Edit) (module : Module) : module.SameShape (edit.after module) :=
  related_after Module.SameShape (.refl module) sameShape_of_perform

end Edit

namespace Module

/-- What can become of a module that was read, by edits in any number and order. -/
inductive Reachable : Module → Prop where
  | decoded {bytes : Bytes} {module : Module} (read : decode bytes = .ok module) : Reachable module
  | edited {module : Module} (before : Reachable module) (edit : Edit) : Reachable (edit.after module)

theorem Reachable.valid {module : Module} (reachable : Reachable module) : module.Valid := by
  induction reachable with
  | decoded read => exact (decode_eq_ok.mp read).1
  | edited before edit ih => exact ih.of_sameShape (edit.sameShape_after _)

/-- A module that keeps the invariant is refused for its size, or written and read back. -/
theorem Valid.encode_cases {module : Module} (valid : module.Valid) :
    (∃ kind size, module.Oversized kind size ∧ module.entries = .error (.tableTooLarge kind size) ∧
      module.encode = .error (.tableTooLarge kind size)) ∨
    ∃ bytes, module.entries = .ok module.frame.entries ∧ module.encode = .ok bytes ∧ decode bytes = .ok module := by
  rcases encode_outcome valid.layout_nodup (fun kind => valid.mem_layout) with ⟨fits, listed, written⟩ | refused
  · exact .inr ⟨_, listed, written, decode_eq_ok.mpr ⟨valid, fits, rfl⟩⟩
  · exact .inl refused

theorem encodeChecked_of_error {module : Module} {error : EncodeError} (failed : module.encode = .error error) :
    module.encodeChecked = .error error := by
  rw [encodeChecked, failed]
  rfl

theorem Valid.encodeChecked_eq_ok {module : Module} (valid : module.Valid) {bytes : Bytes} :
    module.encodeChecked = .ok bytes ↔ module.encode = .ok bytes := by
  rcases valid.encode_cases with ⟨kind, size, _, _, failed⟩ | ⟨own, _, written, read⟩
  · rw [encodeChecked_of_error failed, failed]
  · rw [encodeChecked_of_decode written read, written]

theorem Valid.decode_of_encode {module : Module} (valid : module.Valid) {bytes : Bytes}
    (written : module.encode = .ok bytes) : decode bytes = .ok module := by
  rcases valid.encode_cases with ⟨kind, size, _, _, failed⟩ | ⟨own, _, written', read⟩
  · rw [failed] at written
    cases written
  · rw [written'] at written
    cases written
    exact read

def gold : Module :=
  (Edit.replaceConstant 0 "Hello").after ((Edit.replaceConstant 2 "7").after ((Edit.renameSelf "gold").after coin))

theorem reachable_gold : Reachable gold := by
  have read : decode coinBytes = .ok coin := by decide +kernel
  exact .edited (.edited (.edited (.decoded read) _) _) _

/-- An edited module is written as bytes that hold it, unless an offset or a length does not fit in 32 bits. It never
turns out to be inconsistent. -/
theorem encode_reachable {module : Module} (reachable : Reachable module) :
    ((∃ kind size, module.Oversized kind size ∧ module.encode = .error (.tableTooLarge kind size)) ∨
      ∃ bytes, module.encode = .ok bytes ∧ decode bytes = .ok module ∧ module.encodeChecked = .ok bytes) ∧
    ∀ detail, module.encodeChecked ≠ .error (.invariant detail) ∧ module.entries ≠ .error (.invariant detail) := by
  rcases reachable.valid.encode_cases with ⟨kind, size, oversized, unlisted, failed⟩ | ⟨bytes, listed, written, read⟩
  · refine ⟨.inl ⟨kind, size, oversized, failed⟩, fun detail => ?_⟩
    rw [encodeChecked_of_error failed, unlisted]
    simp
  · have checked := encodeChecked_of_decode written read
    refine ⟨.inr ⟨bytes, written, read, checked⟩, fun detail => ?_⟩
    rw [checked, listed]
    simp

theorem encode_gold : gold.identifiers = ["gold", "GOLD"] ∧
    ∃ bytes, gold.encode = .ok bytes ∧ decode bytes = .ok gold ∧ gold.encodeChecked = .ok bytes := by
  refine ⟨by decide +kernel, ?_⟩
  rcases (encode_reachable reachable_gold).1 with ⟨kind, size, _, failed⟩ | written
  · have written : gold.encode = .ok gold.frame.encode := by decide +kernel
    rw [written] at failed
    cases failed
  · exact written

/-- What is shown for a value is read as the value, so a constant can be replaced by its own text to no effect. -/
theorem parse_displayed :
    (∀ ty value, Value.HasType ty value → Value.parse ty (value.display ty) = .ok value) ∧
    ∀ module, Reachable module → ∀ index constant, module.constants[index]? = some constant →
      module.replaceConstant index constant.display = .ok module := by
  refine ⟨fun ty value typed => Value.parse_display typed, fun module reachable index constant found => ?_⟩
  obtain ⟨_, typed⟩ := reachable.valid.sound constant (List.mem_of_getElem? found)
  refine replaceConstant_eq_ok.mpr ⟨constant, constant.value, found, Value.parse_display typed, ?_⟩
  rw [set_of_getElem? found]

theorem parse_displayed_gold :
    Value.parse (.vector .bytes) "[0x, 0x0a5b]" = .ok (.vector [Value.ofBytes [], Value.ofBytes [0x0A, 0x5B]]) ∧
    gold.replaceConstant 0 "Hello" = .ok gold ∧ gold.replaceConstant 1 "[[258], []]" = .ok gold := by
  obtain ⟨values, constants⟩ := parse_displayed
  refine ⟨?_, ?_, ?_⟩
  · exact values (.vector .bytes) (.vector [Value.ofBytes [], Value.ofBytes [0x0A, 0x5B]]) (by decide)
  · exact constants gold reachable_gold 0 ⟨.bytes, Value.ofBytes [0x48, 0x65, 0x6C, 0x6C, 0x6F]⟩ (by decide +kernel)
  · exact constants gold reachable_gold 1
      ⟨.vector (.vector (.uint .w16)), .vector [.vector [.uint .w16 258], .vector []]⟩ (by decide +kernel)

end Module

end MoveBytecode
