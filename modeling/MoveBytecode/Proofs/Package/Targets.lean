import MoveBytecode.Package
import MoveBytecode.Proofs.Lookup
import MoveBytecode.Proofs.Report

/-! The modules of a package that a configuration edits. Their names are those in the package as it is read, and no
module has two of them; so the order of a configuration's entries only shows in the order of its targets. -/

set_option autoImplicit false

namespace MoveBytecode

theorem nameOf_eq_ok {module : Module} {name : Option String} : nameOf module = .ok name ↔ module.selfName = .ok name :=
  orCause_eq_ok

namespace Manifest

def Named (text : String) (name : Option String) : Prop :=
  ∃ bytes module, decodeBase64 text = .ok bytes ∧ Module.decode bytes = .ok module ∧ module.selfName = .ok name

/-- The first module of a name, or without a name the only module there is; all modules have to be readable. -/
def Selects (manifest : Manifest) (name? : Option String) (index : Nat) : Prop :=
  ∃ names, List.Forall₂ Named manifest.modules names ∧
    match name? with
    | some name => names[index]? = some (some name) ∧ ∀ earlier < index, names[earlier]? ≠ some (some name)
    | none => names.length = 1 ∧ index = 0

/-- A configuration has a target of its own unless it only holds those of modules. -/
def WantsOwn (config : Config) (name? : Option String) : Prop :=
  config.modules = [] ∨ (config.moduleName ≠ none ∨ config.identifiers ≠ [] ∨ config.constants ≠ []) ∨ name? ≠ none

inductive Own (manifest : Manifest) (config : Config) (name? : Option String) : Targets → Prop where
  | wanted {index : Nat} (wants : WantsOwn config name?) (selects : manifest.Selects name? index) :
      Own manifest config name? [(index, config)]
  | unwanted (free : ¬WantsOwn config name?) : Own manifest config name? []

/-- The target that an entry of a configuration has. -/
structure Picks (manifest : Manifest) (entry : String × Config) (target : Nat × Config) : Prop where
  flat : entry.2.modules = []
  selects : manifest.Selects (some entry.1) target.1
  config : target.2 = entry.2

/-- The target of the configuration as a whole before those of its entries; no module comes twice. -/
structure Plan (manifest : Manifest) (config : Config) (name? : Option String) (targets : Targets) : Prop where
  parts : ∃ own listed, targets = own ++ listed ∧ manifest.Own config name? own ∧
    List.Forall₂ manifest.Picks config.modules listed
  distinct : (targets.map Prod.fst).Nodup

variable {manifest : Manifest} {config : Config} {name? : Option String} {targets : Targets} {index : Nat}

theorem moduleName_eq_ok {text : String} {name : Option String} :
    moduleName index text = .ok name ↔ Named text name := by
  simp only [moduleName, Steps.bind_eq_ok, during_eq_ok, orCause_eq_ok, nameOf_eq_ok, Named]
  grind

theorem moduleNames_eq_ok {names : List (Option String)} :
    manifest.moduleNames = .ok names ↔ List.Forall₂ Named manifest.modules names := by
  rw [moduleNames, Steps.mapM_eq_ok]
  simp only [moduleName_eq_ok]
  rw [← List.forall₂_map_left_iff, List.zipIdx_map_fst]

theorem select_eq_ok : manifest.select name? = .ok index ↔ manifest.Selects name? index := by
  simp only [select, Steps.bind_eq_ok, moduleNames_eq_ok, Selects]
  refine exists_congr fun names => and_congr_right fun _ => ?_
  cases name? with
  | none =>
    by_cases single : names.length = 1 <;> simp [single]
  | some name =>
    simp only [someOr_eq_ok, List.findIdx?_eq_some_iff_getElem]
    constructor
    · rintro ⟨inside, here, before⟩
      refine ⟨by rw [List.getElem?_eq_getElem inside, of_decide_eq_true here], fun earlier lower found => ?_⟩
      obtain ⟨_, same⟩ := List.getElem?_eq_some_iff.mp found
      exact before earlier lower (decide_eq_true same)
    · rintro ⟨found, before⟩
      obtain ⟨inside, here⟩ := List.getElem?_eq_some_iff.mp found
      refine ⟨inside, decide_eq_true here, fun earlier lower same => ?_⟩
      exact before earlier lower (List.getElem?_eq_some_iff.mpr ⟨_, of_decide_eq_true same⟩)

theorem Selects.lt_length (selects : manifest.Selects name? index) : index < manifest.modules.length := by
  obtain ⟨names, read, chosen⟩ := selects
  rw [read.length_eq]
  cases name? with
  | none => omega
  | some name => exact (List.getElem?_eq_some_iff.mp chosen.1).1

theorem hasEdits_iff : config.hasEdits = true ↔
    config.moduleName ≠ none ∨ config.identifiers ≠ [] ∨ config.constants ≠ [] := by
  cases config
  simp [Config.hasEdits, Config.edits, Edits.isEmpty, Option.isSome_iff_ne_none, or_assoc]

theorem ownTarget_eq_ok : manifest.ownTarget config name? = .ok targets ↔ manifest.Own config name? targets := by
  have wants : (config.modules.isEmpty || config.hasEdits || name?.isSome) = true ↔ WantsOwn config name? := by
    simp [WantsOwn, hasEdits_iff, Option.isSome_iff_ne_none, or_assoc]
  unfold ownTarget
  by_cases own : WantsOwn config name?
  · simp only [if_pos (wants.mpr own), Steps.bind_eq_ok, select_eq_ok, Steps.pure_eq_ok]
    constructor
    · rintro ⟨index, selects, rfl⟩
      exact .wanted own selects
    · rintro (⟨_, selects⟩ | free)
      · exact ⟨_, selects, rfl⟩
      · exact absurd own free
  · rw [if_neg (mt wants.mp own), Steps.pure_eq_ok]
    constructor
    · rintro rfl
      exact .unwanted own
    · rintro (⟨wants', _⟩ | _)
      · exact absurd wants' own
      · rfl

theorem Own.distinct {own : Targets} (own? : manifest.Own config name? own) : (own.map Prod.fst).Nodup := by
  cases own? with
  | wanted => exact List.nodup_singleton _
  | unwanted => exact List.nodup_nil

theorem addTarget_eq_ok {before : Targets} {entry : String × Config} :
    manifest.addTarget before entry = .ok targets ↔ ∃ target, manifest.Picks entry target ∧
      target.1 ∉ before.map Prod.fst ∧ targets = before ++ [target] := by
  obtain ⟨name, config⟩ := entry
  unfold addTarget
  by_cases flat : config.modules = []
  · have seen (index : Nat) : (before.any fun target => decide (target.1 = index)) = true ↔
        index ∈ before.map Prod.fst := by
      simp
    simp only [flat, List.isEmpty_nil, Bool.not_true, Bool.false_eq_true, if_false, Steps.bind_eq_ok, select_eq_ok, seen]
    constructor
    · rintro ⟨index, selects, done⟩
      by_cases twice : index ∈ before.map Prod.fst
      · rw [if_pos twice] at done
        cases done
      · rw [if_neg twice] at done
        exact ⟨(index, config), ⟨flat, selects, rfl⟩, twice, Steps.pure_eq_ok.mp done⟩
    · rintro ⟨⟨index, _⟩, ⟨_, selects, rfl⟩, fresh, rfl⟩
      exact ⟨index, selects, by rw [if_neg fresh]; rfl⟩
  · have nested : config.modules.isEmpty = false := by simpa using flat
    simp only [nested]
    constructor
    · intro done
      cases done
    · rintro ⟨_, picks, _⟩
      exact absurd picks.flat flat

theorem foldlM_addTarget_eq_ok {entries : List (String × Config)} {before : Targets}
    (distinct : (before.map Prod.fst).Nodup) : entries.foldlM manifest.addTarget before = .ok targets ↔
      ∃ listed, targets = before ++ listed ∧ List.Forall₂ manifest.Picks entries listed ∧
        (targets.map Prod.fst).Nodup := by
  induction entries generalizing before with
  | nil =>
    simp only [List.foldlM_nil, List.forall₂_nil_left_iff]
    constructor
    · intro done
      cases done
      exact ⟨[], (List.append_nil _).symm, rfl, distinct⟩
    · rintro ⟨_, rfl, rfl, _⟩
      rw [List.append_nil]
      rfl
  | cons entry rest ih =>
    simp only [List.foldlM_cons, Steps.bind_eq_ok, addTarget_eq_ok]
    -- The targets so far stay distinct with one more that is fresh.
    have extended {target : Nat × Config} (fresh : target.1 ∉ before.map Prod.fst) :
        ((before ++ [target]).map Prod.fst).Nodup := by
      rw [List.map_append]
      refine List.nodup_append.mpr ⟨distinct, List.nodup_singleton _, fun index member other last same => ?_⟩
      rw [List.mem_singleton.mp last] at same
      exact fresh (same ▸ member)
    constructor
    · rintro ⟨_, ⟨target, picks, fresh, rfl⟩, done⟩
      obtain ⟨listed, rfl, others, distinct'⟩ := (ih (extended fresh)).mp done
      exact ⟨target :: listed, List.append_assoc .., .cons picks others, distinct'⟩
    · rintro ⟨_, rfl, picked, distinct'⟩
      obtain ⟨target, listed, picks, others, rfl⟩ := List.forall₂_cons_left_iff.mp picked
      have fresh : target.1 ∉ before.map Prod.fst := by
        rw [List.map_append] at distinct'
        exact fun member => (List.nodup_append.mp distinct').2.2 _ member _ List.mem_cons_self rfl
      exact ⟨_, ⟨target, picks, fresh, rfl⟩, (ih (extended fresh)).mpr ⟨listed, by simp, others, distinct'⟩⟩

theorem targets_eq_ok : manifest.targets config name? = .ok targets ↔ manifest.Plan config name? targets := by
  simp only [Manifest.targets, Steps.bind_eq_ok, ownTarget_eq_ok]
  constructor
  · rintro ⟨own, own?, done⟩
    obtain ⟨listed, whole, picked, distinct⟩ := (foldlM_addTarget_eq_ok own?.distinct).mp done
    exact ⟨⟨own, listed, whole, own?, picked⟩, distinct⟩
  · rintro ⟨⟨own, listed, whole, own?, picked⟩, distinct⟩
    exact ⟨own, own?, (foldlM_addTarget_eq_ok own?.distinct).mpr ⟨listed, whole, picked, distinct⟩⟩

theorem Plan.lt_length (plan : manifest.Plan config name? targets) :
    ∀ target ∈ targets, target.1 < manifest.modules.length := by
  obtain ⟨⟨own, listed, rfl, own?, picked⟩, _⟩ := plan
  intro target member
  rcases List.mem_append.mp member with member | member
  · cases own? with
    | wanted _ selects =>
      rw [List.mem_singleton.mp member]
      exact selects.lt_length
    | unwanted => cases member
  · obtain ⟨place, inside, rfl⟩ := List.getElem_of_mem member
    exact (picked.get (picked.length_eq ▸ inside) inside).selects.lt_length

theorem Plan.reorder {modules : List (String × Config)} (perm : modules.Perm config.modules)
    (plan : manifest.Plan config name? targets) : ∃ targets', manifest.Plan { config with modules } name? targets' ∧
      ∀ index, targets'.lookup index = targets.lookup index ∨
        targets'.lookup index = some { config with modules } ∧ targets.lookup index = some config := by
  obtain ⟨⟨own, listed, rfl, own?, picked⟩, distinct⟩ := plan
  obtain ⟨listed', picked', listedPerm⟩ := List.perm_comp_forall₂ perm picked
  have wants : WantsOwn { config with modules } name? ↔ WantsOwn config name? := by
    refine or_congr_left ?_
    rw [← List.length_eq_zero_iff, perm.length_eq, List.length_eq_zero_iff]
  -- Behind the target of the whole, which the order does not touch, only a lookup has to agree.
  have lookups := lookup_of_perm (List.Nodup.of_append_right (List.map_append ▸ distinct)) listedPerm.symm
  have distinct' := ((listedPerm.append_left own).map Prod.fst).nodup_iff.mpr distinct
  cases own? with
  | @wanted index wants' selects =>
    refine ⟨_, ⟨⟨_, listed', rfl, .wanted (wants.mpr wants') selects, picked'⟩, distinct'⟩, fun place => ?_⟩
    by_cases same : place = index
    · subst same
      exact .inr ⟨List.lookup_cons_self, List.lookup_cons_self⟩
    · exact .inl ((lookup_cons_of_ne same).trans ((lookups place).trans (lookup_cons_of_ne same).symm))
  | unwanted free =>
    exact ⟨listed', ⟨⟨[], listed', rfl, .unwanted (mt wants.mp free), picked'⟩, distinct'⟩, fun place =>
      .inl (lookups place)⟩

end Manifest

end MoveBytecode
