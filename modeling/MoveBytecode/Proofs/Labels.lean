import MoveBytecode.Proofs.Digits
import MoveBytecode.Proofs.Module.Batch
import MoveBytecode.View

/-! Labels of constants. A key stands for a constant by the first pool name that has it as a label, or as a pool name of
its own where there is none. Where no label is given twice, the label that is shown for a constant stands for it. -/

set_option autoImplicit false

namespace MoveBytecode

namespace PoolName

variable {name : String} {index : Nat}

theorem index?_eq_some : index? name = some index ↔ name = ofIndex index ∧ index < 2 ^ 64 := by
  rw [index?]
  split
  · next starts =>
    obtain ⟨digits, whole⟩ := List.isPrefixOf_iff_prefix.mp starts
    rw [← whole, List.drop_left, Option.filter_eq_some_iff, Text.readCanonicalDecimal?_eq_some, decide_eq_true_eq,
      ofIndex, ← String.toList_inj, String.toList_ofList, ← whole, List.append_cancel_left_eq]
    rfl
  · next other =>
    refine ⟨nofun, ?_⟩
    rintro ⟨rfl, -⟩
    rw [ofIndex, String.toList_ofList] at other
    exact absurd (List.isPrefixOf_iff_prefix.mpr (List.prefix_append _ _)) other

end PoolName

namespace Dictionary

variable {α : Type}

theorem mem_keys_insert {key other : String} {value : α} {dictionary : Dictionary α} :
    other ∈ (dictionary.insert key value).map Prod.fst ↔ other = key ∨ other ∈ dictionary.map Prod.fst := by
  induction dictionary with
  | nil => simp [insert]
  | cons entry rest ih =>
    rw [insert]
    split
    · next same => simp [same]
    · next apart =>
      rw [List.map_cons, List.mem_cons, ih, List.map_cons, List.mem_cons]
      exact or_left_comm

theorem nodup_insert {dictionary : Dictionary α} (distinct : (dictionary.map Prod.fst).Nodup) (key : String)
    (value : α) : ((dictionary.insert key value).map Prod.fst).Nodup := by
  induction dictionary with
  | nil => exact List.nodup_singleton key
  | cons entry rest ih =>
    obtain ⟨fresh, others⟩ := List.nodup_cons.mp distinct
    rw [insert]
    split
    · exact distinct
    · next apart =>
      refine List.nodup_cons.mpr ⟨fun member => ?_, ih others⟩
      rcases mem_keys_insert.mp member with same | old
      · exact apart same
      · exact fresh old

theorem nodup_ofPairs (pairs : List (String × α)) : ((ofPairs pairs).map Prod.fst).Nodup := by
  induction pairs using List.reverseRecOn with
  | nil => exact List.nodup_nil
  | append_singleton before pair ih =>
    rw [ofPairs, List.foldl_append]
    exact nodup_insert ih pair.1 pair.2

end Dictionary

namespace Aliases

variable {aliases : Aliases} {key name label : String} {index : Nat}

def FirstLabelled (aliases : Aliases) (label name : String) : Prop :=
  ∃ before after, aliases = before ++ (name, label) :: after ∧ ∀ entry ∈ before, entry.2 ≠ label

theorem find?_eq_some {entry : String × String} : aliases.find? (fun (_, label) => label = key) = some entry ↔
    entry.2 = key ∧ aliases.FirstLabelled key entry.1 := by
  rw [List.find?_eq_some_iff_append]
  simp only [decide_eq_true_eq, Bool.not_eq_true', decide_eq_false_iff_not, FirstLabelled]
  constructor
  · rintro ⟨rfl, found⟩
    exact ⟨rfl, found⟩
  · rintro ⟨rfl, found⟩
    exact ⟨rfl, found⟩

/-- A key that is a label stands for what the first name with it was made of, if that is a pool name. -/
theorem labelled_eq_some : (aliases.find? fun (_, label) => label = key).bind (fun (name, _) => PoolName.index? name) =
    some index ↔ index < 2 ^ 64 ∧ aliases.FirstLabelled key (PoolName.ofIndex index) := by
  simp only [Option.bind_eq_some_iff, find?_eq_some, PoolName.index?_eq_some]
  constructor
  · rintro ⟨⟨name, label⟩, ⟨rfl, first⟩, rfl, small⟩
    exact ⟨small, first⟩
  · rintro ⟨small, first⟩
    exact ⟨(_, key), ⟨rfl, first⟩, rfl, small⟩

theorem resolve_eq_some : aliases.resolve key = some index ↔ index < 2 ^ 64 ∧
    (aliases.FirstLabelled key (PoolName.ofIndex index) ∨ key = PoolName.ofIndex index ∧
      ∀ name, aliases.FirstLabelled key name → ∀ other < 2 ^ 64, name ≠ PoolName.ofIndex other) := by
  have unnamed : (aliases.find? fun (_, label) => label = key).bind (fun (name, _) => PoolName.index? name) = none ↔
      ∀ name, aliases.FirstLabelled key name → ∀ other < 2 ^ 64, name ≠ PoolName.ofIndex other := by
    simp only [Option.eq_none_iff_forall_ne_some, ne_eq, labelled_eq_some, not_and]
    constructor
    · rintro none name first other small rfl
      exact none other small first
    · intro none other small first
      exact none _ first other small rfl
  rw [resolve, Option.orElse_eq_some, labelled_eq_some, unnamed, PoolName.index?_eq_some]
  tauto

theorem firstLabelled_of_mem (distinct : (aliases.map Prod.snd).Nodup) (member : (name, label) ∈ aliases) :
    aliases.FirstLabelled label name := by
  obtain ⟨before, after, rfl⟩ := List.append_of_mem member
  refine ⟨before, after, rfl, fun entry earlier same => ?_⟩
  rw [List.map_append, List.map_cons] at distinct
  have apart := (List.nodup_append.mp distinct).2.2 entry.2 (List.mem_map_of_mem earlier) label List.mem_cons_self
  exact apart same

theorem resolve_label (distinct : (aliases.map Prod.snd).Nodup) (small : index < 2 ^ 64)
    (labelled : aliases.label? (PoolName.ofIndex index) = some label) : aliases.resolve label = some index :=
  resolve_eq_some.mpr ⟨small, .inl (firstLabelled_of_mem distinct (mem_of_lookup labelled))⟩

theorem label_of_resolve (distinct : (aliases.map Prod.fst).Nodup) (found : aliases.resolve key = some index) :
    aliases.label? (PoolName.ofIndex index) = some key ∨ key = PoolName.ofIndex index ∧
      ∀ name, aliases.FirstLabelled key name → ∀ other < 2 ^ 64, name ≠ PoolName.ofIndex other := by
  obtain ⟨-, ⟨before, after, split, -⟩ | own⟩ := resolve_eq_some.mp found
  · refine .inl (lookup_eq_some_of_mem distinct ?_)
    rw [split]
    exact List.mem_append_right _ List.mem_cons_self
  · exact .inr own

theorem resolve_of_no_label (none : key ∉ aliases.map Prod.snd) : aliases.resolve key = PoolName.index? key := by
  have unfound : aliases.find? (fun (_, label) => label = key) = .none := by
    rw [List.find?_eq_none]
    intro entry member same
    exact none (of_decide_eq_true same ▸ List.mem_map_of_mem member)
  rw [resolve, unfound]
  rfl

end Aliases

namespace Module

theorem Reachable.count_lt {module : Module} (reachable : Reachable module) : module.constants.length < 2 ^ 32 := by
  induction reachable with
  | decoded read =>
    obtain ⟨valid, fits, -⟩ := decode_eq_ok.mp read
    exact Nat.lt_of_le_of_lt (Bytes.count_le_flatMap encode_constant_ne_nil) (valid.table_small fits .constantPool)
  | edited before edit ih => rwa [(edit.sameShape_after _).length_constants]

theorem getElem?_of_mem_fields {module : Module} {field : Field} (member : field ∈ module.fields) :
    ∃ constant, module.constants[field.index]? = some constant ∧
      field = ⟨field.index, PoolName.ofIndex field.index, constant.ty, constant.display⟩ := by
  obtain ⟨index, inside, rfl⟩ := List.mem_mapIdx.mp member
  exact ⟨module.constants[index], List.getElem?_eq_getElem inside, rfl⟩

end Module

namespace Edits

open MoveBytecode.Module

variable {aliases : Aliases} {module : Module} {key text : String} {index : Nat}

/-- In a batch of edits a key is the replacement of the constant it stands for, made where the key has its turn. -/
theorem apply_key (edits : Edits) (before after : Dictionary String) (found : aliases.resolve key = some index)
    (inside : index < module.constants.length) :
    Edits.apply { edits with constants := before ++ (key, text) :: after } module aliases =
      Edits.apply { edits with constants := before } module aliases >>= fun state =>
        state.replaceConstant index text >>= fun replaced => after.foldlM (replaceOne aliases) replaced := by
  have split : Edits.apply { edits with constants := before ++ (key, text) :: after } module aliases =
      Edits.apply { edits with constants := before } module aliases >>= fun state =>
        replaceOne aliases state (key, text) >>= fun replaced => after.foldlM (replaceOne aliases) replaced := by
    simp only [apply, bind_assoc, List.foldlM_append, List.foldlM_cons]
    rfl
  rw [split]
  refine Steps.bind_congr fun state done => ?_
  have same : state.constants.length = module.constants.length := (sameShape_of_apply done).length_constants
  simp only [replaceOne, found, Option.filter_some, same, inside, decide_true, if_true]

end Edits

namespace View

variable {module : Module} {aliases : Aliases} {view : View} {label : String} {field : Field}

theorem constants_of_ofModule (shown : ofModule module aliases = .ok view) :
    view.constants = aliases.labelled module.fields := by
  obtain ⟨moduleName, _, rest⟩ := Steps.bind_eq_ok.mp shown
  obtain ⟨entries, _, done⟩ := Steps.bind_eq_ok.mp rest
  cases done
  rfl

theorem shown_label (shown : ofModule module aliases = .ok view) (member : (some label, field) ∈ view.constants) :
    aliases.label? (PoolName.ofIndex field.index) = some label ∧
      ∃ constant, module.constants[field.index]? = some constant ∧ field.display = constant.display := by
  rw [constants_of_ofModule shown, Aliases.labelled] at member
  obtain ⟨own, inside, same⟩ := List.mem_map.mp member
  obtain ⟨labelled, rfl⟩ := Prod.mk.inj same
  obtain ⟨constant, here, made⟩ := Module.getElem?_of_mem_fields inside
  rw [made] at labelled ⊢
  exact ⟨labelled, constant, here, rfl⟩

end View

namespace Aliases

/-- A key stands for a constant only by its label or as its pool name, and as a pool name only where it is no label of
another one. Where all labels differ, each stands for the constant it was given to: in a batch of edits, the label that is
shown for a constant is the replacement of that constant. -/
theorem resolve_label_iff {aliases : Aliases} (distinct : (aliases.map Prod.fst).Nodup) :
    (∀ name index, PoolName.index? name = some index ↔ name = PoolName.ofIndex index ∧ index < 2 ^ 64) ∧
    (∀ key index, aliases.resolve key = some index →
      aliases.label? (PoolName.ofIndex index) = some key ∨ key = PoolName.ofIndex index ∧
        ∀ name, aliases.FirstLabelled key name → ∀ other < 2 ^ 64, name ≠ PoolName.ofIndex other) ∧
    (∀ key, key ∉ aliases.map Prod.snd → aliases.resolve key = PoolName.index? key) ∧
    ((aliases.map Prod.snd).Nodup →
      (∀ index < 2 ^ 64, ∀ label, aliases.label? (PoolName.ofIndex index) = some label →
        aliases.resolve label = some index) ∧
      ∀ module view, module.Reachable → View.ofModule module aliases = .ok view →
        ∀ label field, (some label, field) ∈ view.constants →
          (∃ constant, module.constants[field.index]? = some constant ∧ field.display = constant.display) ∧
          aliases.resolve label = some field.index ∧
          ∀ (edits : Edits) (before after : Dictionary String) (text : String),
            Edits.apply { edits with constants := before ++ (label, text) :: after } module aliases =
              Edits.apply { edits with constants := before } module aliases >>= fun state =>
                state.replaceConstant field.index text >>= fun replaced =>
                  after.foldlM (Edits.replaceOne aliases) replaced) := by
  refine ⟨fun _ _ => PoolName.index?_eq_some, fun _ _ => label_of_resolve distinct, fun _ => resolve_of_no_label,
    fun apart => ⟨fun _ small _ => resolve_label apart small, ?_⟩⟩
  intro module view reachable shown label field member
  obtain ⟨labelled, constant, here, same⟩ := View.shown_label shown member
  -- A module has too few constants for the index not to be one of 64 bits.
  have inside := (List.getElem?_eq_some_iff.mp here).1
  have small : field.index < 2 ^ 64 := inside.trans (reachable.count_lt.trans (by decide))
  have found := resolve_label apart small labelled
  exact ⟨⟨constant, here, same⟩, found, fun edits before after text => Edits.apply_key edits before after found inside⟩

def crossed : Aliases := Dictionary.ofPairs [("constant_1", "constant_0"), ("constant_0", "GREETING")]

theorem resolve_crossed : crossed.resolve "constant_0" = some 1 ∧ crossed.resolve "GREETING" = some 0 ∧
    crossed.resolve "constant_07" = none ∧
    Edits.apply ⟨none, [], [("constant_0", "[[7]]")]⟩ Module.coin crossed = Module.coin.replaceConstant 1 "[[7]]" := by
  have distinct : (crossed.map Prod.fst).Nodup := Dictionary.nodup_ofPairs _
  obtain ⟨-, -, unlabelled, labelled⟩ := resolve_label_iff distinct
  have read : Module.decode Module.coinBytes = .ok Module.coin := by decide +kernel
  obtain ⟨resolves, shows⟩ := labelled (by decide)
  have seen : (View.ofModule Module.coin crossed).toOption.map View.constants =
      some (crossed.labelled Module.coin.fields) := by decide +kernel
  obtain ⟨view, shown, constants⟩ := Steps.exists_of_map_toOption seen
  obtain ⟨-, found, reaches⟩ := shows Module.coin view (.decoded read) shown "constant_0"
    ⟨1, "constant_1", .vector (.vector (.uint .w16)), "[[258], []]"⟩ (by rw [constants]; decide +kernel)
  have plain : Edits.apply ⟨none, [], []⟩ Module.coin crossed = .ok Module.coin := by decide +kernel
  refine ⟨found, resolves 0 (by decide) "GREETING" (by decide +kernel), ?_, ?_⟩
  · rw [unlabelled "constant_07" (by decide)]
    decide +kernel
  · refine (reaches ⟨none, [], []⟩ [] [] "[[7]]").trans ?_
    change (Edits.apply ⟨none, [], []⟩ Module.coin crossed >>= fun state => state.replaceConstant 1 "[[7]]" >>= pure) = _
    rw [plain]
    exact bind_pure (Module.coin.replaceConstant 1 "[[7]]")

end Aliases

end MoveBytecode
