import MoveBytecode.Proofs.Display
import MoveBytecode.Proofs.Module.Editors
import MoveBytecode.Proofs.Module.RoundTrip
import MoveBytecode.Template

/-! What edits leave as it was. Identifiers get other names and constants other values of their types; no table that was
empty gets an entry and none loses its last, so the tables can be laid out in the order they had. -/

set_option autoImplicit false

namespace MoveBytecode

namespace Module

structure SameShape (before after : Module) : Prop where
  frame : after = { before with identifiers := after.identifiers, constants := after.constants }
  identifiers : after.identifiers.length = before.identifiers.length
  types : after.constants.map Constant.ty = before.constants.map Constant.ty
  typed : (∀ constant ∈ before.constants, Value.HasType constant.ty constant.value) →
    ∀ constant ∈ after.constants, Value.HasType constant.ty constant.value

namespace SameShape

variable {before middle after : Module}

theorem refl (module : Module) : SameShape module module := ⟨rfl, rfl, rfl, id⟩

theorem trans (first : SameShape before middle) (second : SameShape middle after) : SameShape before after := by
  refine ⟨?_, second.identifiers.trans first.identifiers, second.types.trans first.types,
    fun typed => second.typed (first.typed typed)⟩
  rw [second.frame, first.frame]

theorem length_constants (same : SameShape before after) : after.constants.length = before.constants.length := by
  have lengths := congrArg List.length same.types
  rwa [List.length_map, List.length_map] at lengths

theorem rawTables (same : SameShape before after) : after.rawTables = before.rawTables := by
  rw [same.frame]

/-- The handle of a module is looked up where no edit comes. -/
theorem selfNameIndex_eq (same : SameShape before after) : after.selfNameIndex = before.selfNameIndex := by
  rw [same.frame]
  rfl

theorem table_eq_nil (same : SameShape before after) (kind : TableKind) :
    after.table kind = [] ↔ before.table kind = [] := by
  by_cases parsed : kind.isParsed = true
  · rcases isParsed_iff.mp parsed with kinds | kinds | kinds <;> subst kinds
    · simp only [table, Bytes.flatMap_eq_nil fun name => Uleb128.lengthPrefixed_ne_nil (Bytes.ofText name),
        ← List.length_eq_zero_iff, same.identifiers]
    · rw [same.frame]
      rfl
    · simp only [table, Bytes.flatMap_eq_nil encode_constant_ne_nil, ← List.length_eq_zero_iff, same.length_constants]
  · have raw := Bool.eq_false_iff.mpr parsed
    rw [table_raw raw, table_raw raw, rawTable?, rawTable?, same.rawTables]

theorem sound (same : SameShape before after) (sound : ∀ constant ∈ before.constants, constant.Sound) :
    ∀ constant ∈ after.constants, constant.Sound := by
  intro constant member
  have listed : constant.ty ∈ after.constants.map Constant.ty := List.mem_map_of_mem member
  rw [same.types] at listed
  obtain ⟨old, inside, type⟩ := List.mem_map.mp listed
  exact ⟨type ▸ (sound old inside).1, same.typed (fun other there => (sound other there).2) constant member⟩

end SameShape

theorem Valid.of_sameShape {before after : Module} (valid : before.Valid) (same : SameShape before after) :
    after.Valid where
  distinct := by
    rw [same.frame]
    exact valid.distinct
  laidOut := by
    rw [same.frame]
    exact valid.laidOut
  ties := by
    -- The condition speaks of directory, layout and empty tables, none of which an edit changes.
    have directory : after.directory = before.directory := by rw [same.frame]
    have layout : after.layout = before.layout := by rw [same.frame]
    simp only [directory, layout, same.table_eq_nil]
    exact valid.ties
  sound := same.sound valid.sound
  rawKinds := by
    rw [same.frame]
    exact valid.rawKinds
  unlisted kind absent := by
    rw [same.frame] at absent
    exact (same.table_eq_nil kind).mpr (valid.unlisted kind absent)
  handle_present := by
    rw [same.frame]
    exact valid.handle_present
  handle_fits := by
    rw [same.frame]
    exact valid.handle_fits

theorem rename_eq_ok {module renamed : Module} {renames : Renames} : module.rename renames = .ok renamed ↔
    renames.refusal? module.identifiers = none ∧
      renamed = { module with identifiers := renames.settled.apply module.identifiers } := by
  rw [rename_eq]
  cases renames.refusal? module.identifiers with
  | some error => simp
  | none => simp [eq_comm]

theorem eq_of_rename {module renamed : Module} {renames : Renames} (done : module.rename renames = .ok renamed) :
    renamed = { module with identifiers := renames.settled.apply module.identifiers } := (rename_eq_ok.mp done).2

theorem sameShape_of_rename {module renamed : Module} {renames : Renames} (done : module.rename renames = .ok renamed) :
    SameShape module renamed := by
  rw [eq_of_rename done]
  exact ⟨rfl, by simp [Renames.apply], rfl, id⟩

theorem renameSelf_eq_ok {module renamed : Module} {name : String} : module.renameSelf name = .ok renamed ↔
    ∃ renames, module.selfRenames name = .ok renames ∧ module.rename renames = .ok renamed := by
  rw [renameSelf_eq_bind, Steps.bind_eq_ok]

theorem replaceConstant_eq_ok {module replaced : Module} {index : Nat} {text : String} :
    module.replaceConstant index text = .ok replaced ↔ ∃ constant value, module.constants[index]? = some constant ∧
      Value.parse constant.ty text = .ok value ∧
      replaced = { module with constants := module.constants.set index { constant with value } } := by
  rw [replaceConstant_eq]
  cases found : module.constants[index]? with
  | none => simp
  | some constant =>
    cases parsed : Value.parse constant.ty text with
    | error cause => simp [parsed]
    | ok value => simp [parsed, eq_comm (a := replaced)]

theorem set_of_getElem? {α : Type} {values : List α} {index : Nat} {value : α} (found : values[index]? = some value) :
    values.set index value = values := by
  obtain ⟨inside, same⟩ := List.getElem?_eq_some_iff.mp found
  rw [← same, List.set_getElem_self]

theorem sameShape_of_replaceConstant {module replaced : Module} {index : Nat} {text : String}
    (done : module.replaceConstant index text = .ok replaced) : SameShape module replaced := by
  obtain ⟨constant, value, found, parsed, made⟩ := replaceConstant_eq_ok.mp done
  subst made
  refine ⟨rfl, rfl, ?_, fun typed other member => ?_⟩
  · have type : (module.constants.map Constant.ty)[index]? = some constant.ty := by simp [found]
    rw [List.map_set, set_of_getElem? type]
  · rcases List.mem_or_eq_of_mem_set member with old | new
    · exact typed other old
    · subst new
      exact Value.hasType_of_parse parsed

end Module

namespace Edits

open MoveBytecode.Module

theorem sameShape_of_replaceOne {aliases : Aliases} {module replaced : Module} {entry : String × String}
    (done : replaceOne aliases module entry = .ok replaced) : SameShape module replaced := by
  unfold replaceOne at done
  cases found : (aliases.resolve entry.1).filter (· < module.constants.length) with
  | none => simp [found] at done
  | some index =>
    simp only [found] at done
    exact sameShape_of_replaceConstant done

theorem sameShape_of_replaceAll {aliases : Aliases} {module replaced : Module} {entries : Dictionary String}
    (done : entries.foldlM (replaceOne aliases) module = .ok replaced) : SameShape module replaced :=
  Steps.kept_of_foldlM SameShape.refl SameShape.trans sameShape_of_replaceOne done

theorem sameShape_of_apply {edits : Edits} {module edited : Module} {aliases : Aliases}
    (done : edits.apply module aliases = .ok edited) : SameShape module edited := by
  obtain ⟨renames, _, done⟩ := Steps.bind_eq_ok.mp done
  obtain ⟨renamed, named, done⟩ := Steps.bind_eq_ok.mp done
  exact (sameShape_of_rename named).trans (sameShape_of_replaceAll done)

end Edits

end MoveBytecode
