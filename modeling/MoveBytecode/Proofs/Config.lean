import MoveBytecode.Config
import MoveBytecode.Proofs.Json.Value
import MoveBytecode.Proofs.Labels

/-! The text of a configuration holds the configuration. Every entry is read again in its place, at each level of modules
in modules, as long as the text may be so deep. -/

set_option autoImplicit false

namespace MoveBytecode

namespace Dictionary

variable {α : Type} {pairs : List (String × α)} {key : String}

theorem insert_of_fresh (fresh : key ∉ pairs.map Prod.fst) (value : α) :
    insert key value pairs = pairs ++ [(key, value)] := by
  induction pairs with
  | nil => rfl
  | cons entry rest ih =>
    obtain ⟨apart, others⟩ := List.ne_and_not_mem_of_not_mem_cons fresh
    rw [insert, if_neg apart.symm, ih others, List.cons_append]

theorem ofPairs_concat (pairs : List (String × α)) (pair : String × α) :
    ofPairs (pairs ++ [pair]) = insert pair.1 pair.2 (ofPairs pairs) := by
  rw [ofPairs, List.foldl_append]
  rfl

theorem ofPairs_of_nodup (distinct : (pairs.map Prod.fst).Nodup) : ofPairs pairs = pairs := by
  induction pairs using List.reverseRecOn with
  | nil => rfl
  | append_singleton before pair ih =>
    rw [List.map_append, List.map_singleton, List.nodup_append] at distinct
    obtain ⟨earlier, -, apart⟩ := distinct
    have fresh : pair.1 ∉ before.map Prod.fst := fun member => apart _ member _ (List.mem_singleton_self _) rfl
    rw [ofPairs_concat, ih earlier, insert_of_fresh fresh]

theorem mem_of_mem_insert {entry : String × α} {value : α} (inside : entry ∈ insert key value pairs) :
    entry = (key, value) ∨ entry ∈ pairs := by
  induction pairs with
  | nil => exact .inl (List.mem_singleton.mp inside)
  | cons first rest ih =>
    rw [insert] at inside
    split at inside
    · next same => exact (List.mem_cons.mp inside).imp (fun here => same ▸ here) (List.mem_cons_of_mem _)
    · rcases List.mem_cons.mp inside with rfl | later
      · exact .inr List.mem_cons_self
      · exact (ih later).imp_right (List.mem_cons_of_mem _)

theorem mem_of_mem_ofPairs {entry : String × α} (inside : entry ∈ ofPairs pairs) : entry ∈ pairs := by
  induction pairs using List.reverseRecOn with
  | nil => cases inside
  | append_singleton before pair ih =>
    rw [ofPairs_concat] at inside
    rcases mem_of_mem_insert inside with rfl | earlier
    · exact List.mem_append_right _ (List.mem_singleton_self _)
    · exact List.mem_append_left _ (ih earlier)

end Dictionary

namespace Json

variable {α : Type} {value? : Tree → Option α} {dictionary : Dictionary α}

theorem stringOrNull?_ofOption (text : Option String) : (ofOption text).tree.stringOrNull? = some text := by
  cases text <;> rfl

theorem dictionary?_object {write : α → Json} (distinct : (dictionary.map Prod.fst).Nodup)
    (back : ∀ entry ∈ dictionary, value? (write entry.2).tree = some entry.2) :
    (object (dictionary.map fun entry => (entry.1, write entry.2))).tree.dictionary? value? = some dictionary := by
  rw [tree, Tree.dictionary?]
  refine Option.bind_eq_some_iff.mpr ⟨dictionary, ?_, congrArg some (Dictionary.ofPairs_of_nodup distinct)⟩
  rw [memberTrees_eq_map, List.map_map, Steps.mapM_eq_some, List.forall₂_map_left_iff]
  refine List.forall₂_same.mpr fun entry member => ?_
  simp only [Function.comp_apply, Option.bind_eq_bind, Option.bind_some, back entry member]
  rfl

theorem dictionary?_ofDictionary {dictionary : Dictionary String} (distinct : (dictionary.map Prod.fst).Nodup) :
    (ofDictionary dictionary).tree.dictionary? Tree.string? = some dictionary :=
  dictionary?_object distinct fun _ _ => rfl

theorem of_dictionaryField {field : Option Tree}
    (read : Tree.fieldOr [] (Tree.dictionary? value?) field = some dictionary) :
    (dictionary.map Prod.fst).Nodup ∧ ∀ entry ∈ dictionary, ∃ tree, value? tree = some entry.2 := by
  cases field with
  | none =>
    cases read
    exact ⟨List.nodup_nil, nofun⟩
  | some tree =>
    cases tree with
    | object members =>
      obtain ⟨pairs, values, made⟩ := Option.bind_eq_some_iff.mp read
      cases made
      refine ⟨Dictionary.nodup_ofPairs pairs, fun entry inside => ?_⟩
      -- An entry of the dictionary is one of the pairs, and those were read one by one.
      obtain ⟨⟨key, tree⟩, -, made⟩ :=
        Steps.exists_of_mem_right (Steps.mapM_eq_some.mp values) (Dictionary.mem_of_mem_ofPairs inside)
      obtain ⟨_, _, made⟩ := Option.bind_eq_some_iff.mp made
      obtain ⟨value, read, ⟨⟩⟩ := Option.bind_eq_some_iff.mp made
      exact ⟨tree, read⟩
    | null | bool | number | string | array => cases read

theorem depth_ofOption (text : Option String) : (ofOption text).tree.depth = 0 := by
  cases text <;> rfl

theorem depth_ofDictionary (dictionary : Dictionary String) : (ofDictionary dictionary).tree.depth = 1 := by
  have flat : Tree.membersDepth (memberTrees (dictionary.map fun entry => (entry.1, .string entry.2))) ≤ 0 :=
    membersDepth_le.mpr (List.forall_mem_map.mpr fun _ _ => le_rfl)
  exact congrArg Nat.succ (Nat.le_zero.mp flat)

end Json

open Json (Tree)

namespace Edits

structure Keyed (edits : Edits) : Prop where
  identifiers : (edits.identifiers.map Prod.fst).Nodup
  constants : (edits.constants.map Prod.fst).Nodup

theorem ofTree?_json {edits : Edits} (keyed : edits.Keyed) : ofTree? edits.json.tree = some edits := by
  have fields : edits.json.tree.fields? ["module_name", "identifiers", "constants"] true = some
      [some (Json.ofOption edits.moduleName).tree, some (Json.ofDictionary edits.identifiers).tree,
        some (Json.ofDictionary edits.constants).tree] := rfl
  simp only [ofTree?, fields, Option.bind_eq_bind, Option.bind_some, Tree.fieldOr, Json.stringOrNull?_ofOption,
    Json.dictionary?_ofDictionary keyed.identifiers, Json.dictionary?_ofDictionary keyed.constants]
  rfl

theorem ofText?_compactText {edits : Edits} (keyed : edits.Keyed) : ofText? edits.json.compactText = some edits := by
  rw [ofText?, Json.ofText?_compactText, Option.bind_eq_bind, Option.bind_some, ofTree?_json keyed]

theorem keyed_of_ofText? {text : String} {edits : Edits} (read : ofText? text = some edits) : edits.Keyed := by
  obtain ⟨tree, -, read⟩ := Option.bind_eq_some_iff.mp read
  obtain ⟨fields, -, read⟩ := Option.bind_eq_some_iff.mp read
  split at read
  · simp only [Option.bind_eq_bind, Option.bind_eq_some_iff, Option.pure_def, Option.some.injEq] at read
    obtain ⟨_, -, identifiers, names, constants, values, rfl⟩ := read
    exact ⟨(Json.of_dictionaryField names).1, (Json.of_dictionaryField values).1⟩
  · cases read

end Edits

namespace Config

mutual

/-- How many configurations are within each other, the whole one among them. -/
def nesting : Config → Nat
  | ⟨_, _, _, _, modules⟩ => modulesNesting modules + 1

def modulesNesting : List (String × Config) → Nat
  | [] => 0
  | (_, first) :: rest => max first.nesting (modulesNesting rest)

end

/-- No key comes twice, and neither does one in a configuration of a module. -/
inductive Keyed : Config → Prop where
  | intro {config : Config} (edits : config.edits.Keyed) (aliases : (config.aliases.map Prod.fst).Nodup)
      (modules : (config.modules.map Prod.fst).Nodup) (inner : ∀ entry ∈ config.modules, Keyed entry.2) : Keyed config

theorem nesting_eq (config : Config) : config.nesting = modulesNesting config.modules + 1 := by
  cases config
  rfl

theorem modulesNesting_le {modules : List (String × Config)} {bound : Nat} :
    modulesNesting modules ≤ bound ↔ ∀ entry ∈ modules, entry.2.nesting ≤ bound := by
  induction modules with
  | nil => simp [modulesNesting]
  | cons first rest ih => simp [modulesNesting, ih]

theorem jsonMembers_eq_map (modules : List (String × Config)) :
    jsonMembers modules = modules.map fun entry => (entry.1, entry.2.json) := by
  induction modules with
  | nil => rfl
  | cons first rest ih => rw [jsonMembers, ih, List.map_cons]

mutual

/-- The text has two levels for each configuration, one of them for its maps. -/
theorem depth_json : ∀ config : Config, config.json.tree.depth = 2 * config.nesting
  | ⟨moduleName, aliases, constants, identifiers, modules⟩ => by
    have inner := membersDepth_jsonMembers modules
    simp only [json, Json.tree, Json.memberTrees, Tree.depth, Tree.membersDepth, nesting, inner, Json.depth_ofOption,
      Json.depth_ofDictionary]
    omega

theorem membersDepth_jsonMembers : ∀ modules : List (String × Config),
    Tree.membersDepth (Json.memberTrees (jsonMembers modules)) = 2 * modulesNesting modules
  | [] => rfl
  | (name, first) :: rest => by
    have head := depth_json first
    have tail := membersDepth_jsonMembers rest
    simp only [jsonMembers, Json.memberTrees, Tree.membersDepth, modulesNesting, head, tail]
    omega

end

theorem fields?_json (config : Config) :
    config.json.tree.fields? ["module_name", "aliases", "constants", "identifiers", "modules"] false = some
      [some (Json.ofOption config.moduleName).tree, some (Json.ofDictionary config.aliases).tree,
        some (Json.ofDictionary config.constants).tree, some (Json.ofDictionary config.identifiers).tree,
        some (Json.object (config.modules.map fun entry => (entry.1, entry.2.json))).tree] := by
  rw [← jsonMembers_eq_map]
  cases config
  rfl

theorem ofTree?_json {config : Config} (keyed : config.Keyed) {levels : Nat} (few : config.nesting ≤ levels) :
    ofTree? levels config.json.tree = some config := by
  -- The configurations of modules are read with one level less, and are nested one level less.
  induction keyed generalizing levels with
  | @intro config edits aliases modules inner ih =>
    cases levels with
    | zero =>
      cases config
      cases few
    | succ levels =>
      rw [nesting_eq, Nat.add_le_add_iff_right, modulesNesting_le] at few
      have labels := Json.dictionary?_ofDictionary aliases
      have values : (Json.ofDictionary config.constants).tree.dictionary? Tree.string? = some config.constants :=
        Json.dictionary?_ofDictionary edits.constants
      have names : (Json.ofDictionary config.identifiers).tree.dictionary? Tree.string? = some config.identifiers :=
        Json.dictionary?_ofDictionary edits.identifiers
      have configs := Json.dictionary?_object modules fun entry inside => ih entry inside (few entry inside)
      simp only [ofTree?, fields?_json, Option.bind_eq_bind, Option.bind_some, Tree.fieldOr,
        Json.stringOrNull?_ofOption, labels, values, names, configs]
      cases config
      rfl

theorem keyed_of_ofTree? {levels : Nat} {tree : Tree} {config : Config} (read : ofTree? levels tree = some config) :
    config.Keyed := by
  induction levels generalizing tree config with
  | zero => cases read
  | succ levels ih =>
    obtain ⟨fields, -, read⟩ := Option.bind_eq_some_iff.mp read
    split at read
    · simp only [Option.bind_eq_bind, Option.bind_eq_some_iff, Option.pure_def, Option.some.injEq] at read
      obtain ⟨_, -, aliases, labels, constants, values, identifiers, names, modules, configs, rfl⟩ := read
      refine .intro ⟨(Json.of_dictionaryField names).1, (Json.of_dictionaryField values).1⟩
        (Json.of_dictionaryField labels).1 (Json.of_dictionaryField configs).1 fun entry inside => ?_
      obtain ⟨_, inner⟩ := (Json.of_dictionaryField configs).2 entry inside
      exact ih inner
    · cases read

theorem keyed_of_ofText? {text : String} {config : Config} (read : ofText? text = some config) : config.Keyed := by
  obtain ⟨tree, -, read⟩ := Option.bind_eq_some_iff.mp read
  split at read
  · exact keyed_of_ofTree? read
  · cases read

/-- Two levels for each configuration are more than a text may have from the 64th on. -/
theorem ofText?_compactText {config : Config} (keyed : config.Keyed) :
    ofText? config.json.compactText = if config.nesting ≤ 63 then some config else none := by
  rw [ofText?, Json.ofText?_compactText, Option.bind_eq_bind, Option.bind_some, depth_json]
  by_cases few : config.nesting ≤ 63
  · rw [if_pos few, if_pos, ofTree?_json keyed (by omega)]
    unfold Tree.maxDepth
    omega
  · rw [if_neg few, if_neg]
    unfold Tree.maxDepth
    omega

theorem keyed_iff {config : Config} (few : config.nesting ≤ 63) : config.Keyed ↔ ∃ text, ofText? text = some config := by
  constructor
  · intro keyed
    exact ⟨_, (ofText?_compactText keyed).trans (if_pos few)⟩
  · rintro ⟨text, read⟩
    exact keyed_of_ofText? read

/-- A configuration is read from its text as it is, every entry in its place, unless it holds more than 63 levels of
configurations; then the text is refused. Edits are always read so. -/
theorem ofText?_roundTrip :
    (∀ config : Config, config.Keyed →
      ofText? config.json.compactText = if config.nesting ≤ 63 then some config else none) ∧
    ∀ edits : Edits, edits.Keyed → Edits.ofText? edits.json.compactText = some edits :=
  ⟨fun _ keyed => ofText?_compactText keyed, fun _ keyed => Edits.ofText?_compactText keyed⟩

def nested : Config :=
  ⟨some "gol\"d", [("constant_2", "été\n"), ("constant_0", "TOTAL\\SUPPLY")], [("b", "1"), ("a", "2")],
    [("init", "\u0001 😀")], [("silver", ⟨none, [], [("constant_1", "9")], [], []⟩)]⟩

theorem ofText?_roundTrip_nested : nested.Keyed ∧ nested.nesting ≤ 63 ∧
    ofText? nested.json.compactText = some nested ∧
    Edits.ofText? nested.edits.json.compactText = some nested.edits := by
  have inner : ∀ entry ∈ nested.modules, entry.2.Keyed :=
    List.forall_mem_singleton.mpr (.intro ⟨by decide, by decide⟩ (by decide) (by decide) nofun)
  have edits : nested.edits.Keyed := ⟨by decide, by decide⟩
  have keyed : nested.Keyed := .intro edits (by decide) (by decide) inner
  exact ⟨keyed, by decide, ofText?_roundTrip.1 nested keyed, ofText?_roundTrip.2 nested.edits edits⟩

end Config

end MoveBytecode
