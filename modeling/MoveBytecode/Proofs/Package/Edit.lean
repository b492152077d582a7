import MoveBytecode.Proofs.Package.Targets

/-! What editing a package comes to. No two targets are the same module, so each is edited as it was, whatever the
order of the configuration's entries, and all other modules are left alone. -/

set_option autoImplicit false

namespace MoveBytecode

namespace Manifest

/-- A module that is no target stays the text it was; a target is read, edited and written. -/
def Becomes (whole : Config) (target? : Option Config) (old new : String) : Prop :=
  match target? with
  | none => new = old
  | some target => ∃ bytes written, decodeBase64 old = .ok bytes ∧
      instantiate bytes ⟨target.moduleName, target.identifiers, target.constants⟩
        (if target.aliases = [] then whole.aliases else target.aliases) = .ok written ∧ new = encodeBase64 written

/-- The modules of a package before and after the targets among them are edited. -/
structure Rewritten (whole : Config) (targets : Targets) (olds news : List String) : Prop where
  count : news.length = olds.length
  each : ∀ index old new, olds[index]? = some old → news[index]? = some new →
    Becomes whole (targets.lookup index) old new

def Widens (old new : String) : Prop :=
  ∃ address, Address.ofShortHex old = .ok address ∧ new = String.ofList address.display

structure EditedInto (manifest : Manifest) (config : Config) (targets : Targets) (edited : Manifest) : Prop where
  digest : edited.digest = manifest.digest
  extra : edited.extra = manifest.extra
  dependencies : List.Forall₂ Widens manifest.dependencies edited.dependencies
  modules : Rewritten config targets manifest.modules edited.modules

variable {manifest edited : Manifest} {config whole : Config} {name? : Option String} {targets : Targets} {index : Nat}

theorem aliasesOr_eq (target whole : Config) :
    target.aliasesOr whole = if target.aliases = [] then whole.aliases else target.aliases := by
  simp [Config.aliasesOr]

theorem apply_eq_ok {target : Config} :
    manifest.apply index target.edits (target.aliasesOr whole) = .ok edited ↔ ∃ old new,
      manifest.modules[index]? = some old ∧ Becomes whole (some target) old new ∧
      edited = { manifest with modules := manifest.modules.set index new } := by
  simp only [apply, aliasesOr_eq, Steps.bind_eq_ok, someOr_eq_ok, during_eq_ok, orCause_eq_ok, Steps.pure_eq_ok, Becomes]
  constructor
  · rintro ⟨old, here, bytes, read, written, done, whole⟩
    exact ⟨old, _, here, ⟨bytes, written, read, done, rfl⟩, whole⟩
  · rintro ⟨old, _, here, ⟨bytes, written, read, done, rfl⟩, whole⟩
    exact ⟨old, here, bytes, read, written, done, whole⟩

theorem rewritten_nil {olds news : List String} : Rewritten whole [] olds news ↔ news = olds := by
  constructor
  · rintro ⟨count, each⟩
    refine List.ext_getElem count fun index there here => ?_
    exact each index _ _ (List.getElem?_eq_getElem here) (List.getElem?_eq_getElem there)
  · rintro rfl
    exact ⟨rfl, fun index old new here there => Option.some.inj (there.symm.trans here)⟩

/-- No later target is at the place of the first, so what is there after the first one stays. -/
theorem rewritten_cons {target : Config} {olds news : List String} (fresh : index ∉ targets.map Prod.fst)
    (inside : index < olds.length) : Rewritten whole ((index, target) :: targets) olds news ↔
      ∃ old new, olds[index]? = some old ∧ Becomes whole (some target) old new ∧
        Rewritten whole targets (olds.set index new) news := by
  have alone := lookup_eq_none_of_fresh fresh
  constructor
  · rintro ⟨count, each⟩
    have here : olds[index]? = some olds[index] := List.getElem?_eq_getElem inside
    have there : news[index]? = some news[index] := List.getElem?_eq_getElem (count ▸ inside)
    -- In between stands what the first target makes; at its place that is the result, elsewhere nothing has changed.
    have becomes := each index _ _ here there
    rw [List.lookup_cons_self] at becomes
    refine ⟨_, _, here, becomes, count.trans List.length_set.symm, fun place old new here' there' => ?_⟩
    by_cases same : place = index
    · subst same
      rw [List.getElem?_set_self inside] at here'
      rw [alone]
      exact Option.some.inj (there'.symm.trans (there.trans here'))
    · rw [List.getElem?_set_ne (Ne.symm same)] at here'
      have other := each place old new here' there'
      rwa [lookup_cons_of_ne same] at other
  · rintro ⟨old, new, here, becomes, count, each⟩
    refine ⟨count.trans List.length_set, fun place old' new' here' there' => ?_⟩
    by_cases same : place = index
    · subst same
      cases here.symm.trans here'
      have kept := each place new new' (List.getElem?_set_self inside) there'
      rw [alone] at kept
      rw [List.lookup_cons_self, kept]
      exact becomes
    · rw [lookup_cons_of_ne same]
      exact each place old' new' (by rw [List.getElem?_set_ne (Ne.symm same), here']) there'

theorem foldlM_apply_eq_ok (distinct : (targets.map Prod.fst).Nodup)
    (inside : ∀ target ∈ targets, target.1 < manifest.modules.length) :
    targets.foldlM (fun manifest target =>
      manifest.apply target.1 target.2.edits (target.2.aliasesOr whole)) manifest = .ok edited ↔
    edited = { manifest with modules := edited.modules } ∧
      Rewritten whole targets manifest.modules edited.modules := by
  induction targets generalizing manifest with
  | nil =>
    rw [List.foldlM_nil, Steps.pure_eq_ok, rewritten_nil]
    constructor
    · rintro rfl
      exact ⟨rfl, rfl⟩
    · rintro ⟨frame, same⟩
      rw [frame, same]
  | cons first rest ih =>
    obtain ⟨fresh, distinct⟩ := List.nodup_cons.mp distinct
    obtain ⟨head, others⟩ := List.forall_mem_cons.mp inside
    have others' (new : String) : ∀ target ∈ rest, target.1 < (manifest.modules.set first.1 new).length := by
      simpa using others
    -- The first target is at no place of the others, so they find there what they would have found before it.
    rw [List.foldlM_cons, Steps.bind_eq_ok, rewritten_cons fresh head]
    simp only [apply_eq_ok]
    constructor
    · rintro ⟨_, ⟨old, new, here, becomes, rfl⟩, done⟩
      obtain ⟨frame, rewritten⟩ := (ih distinct (others' new)).mp done
      exact ⟨frame, old, new, here, becomes, rewritten⟩
    · rintro ⟨frame, old, new, here, becomes, rewritten⟩
      exact ⟨_, ⟨old, new, here, becomes, rfl⟩, (ih distinct (others' new)).mpr ⟨frame, rewritten⟩⟩

theorem widen_eq_ok {olds news : List String} : widen olds = (news, .ok ()) ↔ List.Forall₂ Widens olds news := by
  induction olds generalizing news with
  | nil => simp [widen, eq_comm]
  | cons first rest ih =>
    rw [List.forall₂_cons_left_iff, widen]
    cases read : Address.ofShortHex first with
    | error error => simp [Widens, read]
    | ok address =>
      rcases after : widen rest with ⟨widened, outcome⟩
      simp only [after, Prod.mk.injEq] at ih
      simp only [Widens, read, Except.ok.injEq, Prod.mk.injEq]
      constructor
      · rintro ⟨rfl, rfl⟩
        exact ⟨_, widened, ⟨address, rfl, rfl⟩, ih.mp ⟨rfl, rfl⟩, rfl⟩
      · rintro ⟨_, news, ⟨_, rfl, rfl⟩, others, rfl⟩
        obtain ⟨rfl, rfl⟩ := ih.mpr others
        exact ⟨rfl, rfl⟩

theorem widenDependencies_eq_ok : manifest.widenDependencies = (edited, .ok ()) ↔
    edited = { manifest with dependencies := edited.dependencies } ∧
      List.Forall₂ Widens manifest.dependencies edited.dependencies := by
  rw [← widen_eq_ok, widenDependencies]
  rcases widen manifest.dependencies with ⟨widened, outcome⟩
  simp only [Prod.mk.injEq]
  constructor
  · rintro ⟨rfl, rfl⟩
    exact ⟨rfl, rfl, rfl⟩
  · rintro ⟨frame, same, rfl⟩
    rw [same]
    exact ⟨frame.symm, rfl⟩

end Manifest

open Manifest

theorem editPackage_eq (text : String) (config : Config) (name? : Option String) : editPackage text config name? = do
    let manifest ← Manifest.ofText text
    let targets ← manifest.targets config name?
    let edited ← targets.foldlM (fun manifest target =>
      manifest.apply target.1 target.2.edits (target.2.aliasesOr config)) manifest
    edited.widenDependencies.2
    return edited.widenDependencies.1.text := rfl

theorem editPackage_eq_ok {text out : String} {config : Config} {name? : Option String} :
    editPackage text config name? = .ok out ↔ ∃ manifest targets edited, Manifest.ofText text = .ok manifest ∧
      manifest.Plan config name? targets ∧ manifest.EditedInto config targets edited ∧ out = edited.text := by
  rw [editPackage_eq]
  simp only [Steps.bind_eq_ok, targets_eq_ok, Steps.pure_eq_ok]
  constructor
  · rintro ⟨manifest, read, targets, plan, middle, done, ⟨⟩, widened, written⟩
    obtain ⟨frame, rewritten⟩ := (foldlM_apply_eq_ok plan.distinct plan.lt_length).mp done
    -- Editing touches the modules and widening the dependencies, so neither is in the way of the other.
    obtain ⟨edited, whole⟩ : ∃ edited, middle.widenDependencies = (edited, .ok ()) := ⟨_, Prod.ext rfl widened⟩
    rw [whole] at written
    obtain ⟨frame', widens⟩ := widenDependencies_eq_ok.mp whole
    rw [frame] at frame' widens
    exact ⟨manifest, targets, edited, read, plan,
      ⟨by rw [frame'], by rw [frame'], widens, by rwa [frame']⟩, written⟩
  · rintro ⟨manifest, targets, edited, read, plan, ⟨digest, extra, widens, rewritten⟩, written⟩
    have widened : ({ manifest with modules := edited.modules } : Manifest).widenDependencies = (edited, .ok ()) :=
      widenDependencies_eq_ok.mpr ⟨by rw [← digest, ← extra], widens⟩
    refine ⟨manifest, read, targets, plan, { manifest with modules := edited.modules },
      (foldlM_apply_eq_ok plan.distinct plan.lt_length).mpr ⟨rfl, rewritten⟩, (), ?_⟩
    rw [widened]
    exact ⟨rfl, written⟩

/-- The order of a configuration's entries does not matter, neither to whether a package can be edited nor to what comes
of it. -/
theorem editPackage_reorder {text : String} {config : Config} {modules : List (String × Config)} {name? : Option String}
    (perm : modules.Perm config.modules) (out : String) :
    editPackage text { config with modules } name? = .ok out ↔ editPackage text config name? = .ok out := by
  have reordered (config : Config) (modules : List (String × Config)) (perm : modules.Perm config.modules)
      (done : editPackage text config name? = .ok out) : editPackage text { config with modules } name? = .ok out := by
    obtain ⟨manifest, targets, edited, read, plan, into, written⟩ := editPackage_eq_ok.mp done
    obtain ⟨targets', plan', lookups⟩ := plan.reorder perm
    refine editPackage_eq_ok.mpr ⟨manifest, targets', edited, read, plan', { into with modules := ?_ }, written⟩
    refine ⟨into.modules.count, fun index old new here there => ?_⟩
    have becomes := into.modules.each index old new here there
    -- Neither the edits nor the labels of a configuration are among its entries.
    rcases lookups index with same | ⟨own', own⟩
    · rw [same]
      exact becomes
    · rw [own] at becomes
      rw [own']
      exact becomes
  refine ⟨fun done => ?_, reordered config modules perm⟩
  obtain ⟨moduleName, aliases, constants, identifiers, entries⟩ := config
  exact reordered ⟨moduleName, aliases, constants, identifiers, modules⟩ entries perm.symm done

def pairText : String :=
  "\x7b\"modules\":[\"oRzrCwYAAAACAQACBwICAAABYQA=\",\"oRzrCwYAAAACAQACBwICAAABYgA=\"]\x7d"

def exchange : Config where
  moduleName := none
  aliases := []
  constants := []
  identifiers := []
  modules := [("a", ⟨some "b", [], [], [], []⟩), ("b", ⟨some "a", [], [], [], []⟩)]

def exchangedText : String :=
  "\x7b\n  \"modules\": [\n    \"oRzrCwYAAAACAQACBwICAAABYgA=\",\n    \"oRzrCwYAAAACAQACBwICAAABYQA=\"\n  ],\n  " ++
    "\"dependencies\": [],\n  \"digest\": []\n\x7d"

theorem editPackage_exchange : editPackage pairText exchange none = .ok exchangedText ∧
    editPackage pairText { exchange with modules := exchange.modules.reverse } none = .ok exchangedText := by
  have done : editPackage pairText exchange none = .ok exchangedText := by decide +kernel
  exact ⟨done, (editPackage_reorder (List.reverse_perm _) _).mpr done⟩

end MoveBytecode
