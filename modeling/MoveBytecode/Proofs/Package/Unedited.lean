import MoveBytecode.Proofs.Module.RenameOrder
import MoveBytecode.Proofs.Package.Text

/-! Configurations without edits. What they make of a module is the text it was read from without the blanks around it,
since none of the layers in between accepts anything that it would write in another way. -/

set_option autoImplicit false

namespace MoveBytecode

def trimmed (text : String) : String := String.ofList (Text.trim text.toList)

def HoldsModule (text : String) : Prop :=
  ∃ bytes module, Text.trim text.toList = Base64.encode bytes ∧ Module.decode bytes = .ok module

theorem Edits.apply_none (module : Module) (aliases : Aliases) :
    Edits.apply ⟨none, [], []⟩ module aliases = .ok module := by
  rw [Edits.apply_eq_ok]
  exact ⟨[], module, rfl, nofun, Module.rename_nil module, rfl⟩

theorem instantiate_unedited {bytes written : Bytes} {aliases : Aliases} :
    instantiate bytes ⟨none, [], []⟩ aliases = .ok written ↔
      (∃ module, Module.decode bytes = .ok module) ∧ written = bytes := by
  rw [Edits.instantiate_eq_ok]
  constructor
  · intro made
    obtain ⟨module, edited, read, applied, encoded⟩ := made
    rw [Edits.apply_none] at applied
    cases applied
    rw [Module.encode_of_decode read] at encoded
    exact ⟨⟨module, read⟩, (Except.ok.inj encoded).symm⟩
  · intro kept
    obtain ⟨⟨module, read⟩, same⟩ := kept
    subst same
    exact ⟨module, module, read, Edits.apply_none module aliases, Module.encode_of_decode read⟩

theorem unedited_iff {old new : String} {aliases : Aliases} :
    (∃ bytes written, decodeBase64 old = .ok bytes ∧ instantiate bytes ⟨none, [], []⟩ aliases = .ok written ∧
      new = encodeBase64 written) ↔ HoldsModule old ∧ new = trimmed old := by
  simp only [decodeBase64_eq_ok, instantiate_unedited, HoldsModule, trimmed, encodeBase64]
  constructor
  · intro made
    obtain ⟨bytes, written, text, ⟨⟨module, read⟩, same⟩, out⟩ := made
    subst same
    rw [text]
    exact ⟨⟨written, module, rfl, read⟩, out⟩
  · intro kept
    obtain ⟨⟨bytes, module, text, read⟩, out⟩ := kept
    rw [text] at out
    exact ⟨bytes, bytes, text, ⟨⟨module, read⟩, rfl⟩, out⟩

theorem editModule_eq_ok {text out : String} {config : Config} : editModule text config = .ok out ↔
    ∃ bytes written, decodeBase64 text = .ok bytes ∧ instantiate bytes config.edits config.aliases = .ok written ∧
      out = encodeBase64 written := by
  simp only [editModule, Steps.bind_eq_ok, during_eq_ok, orCause_eq_ok, Steps.pure_eq_ok]
  constructor
  · intro done
    obtain ⟨bytes, read, written, made, out⟩ := done
    exact ⟨bytes, written, read, made, out⟩
  · intro done
    obtain ⟨bytes, written, read, made, out⟩ := done
    exact ⟨bytes, read, written, made, out⟩

namespace Manifest

variable {manifest edited : Manifest} {config whole : Config} {name? : Option String} {targets : Targets} {old : String}

theorem plan_of_no_modules (alone : config.modules = []) :
    manifest.Plan config name? targets ↔ ∃ index, manifest.Selects name? index ∧ targets = [(index, config)] := by
  constructor
  · intro plan
    -- Nothing is listed, so the only target is that of the configuration as a whole, which is wanted then.
    obtain ⟨⟨own, listed, whole, own?, picked⟩, _⟩ := plan
    rw [alone, List.forall₂_nil_left_iff] at picked
    subst picked
    rw [List.append_nil] at whole
    subst whole
    cases own? with
    | wanted _ selects => exact ⟨_, selects, rfl⟩
    | unwanted free => exact absurd (.inl alone) free
  · intro target
    obtain ⟨index, selects, whole⟩ := target
    subst whole
    refine ⟨⟨[(index, config)], [], rfl, .wanted (.inl alone) selects, ?_⟩, List.nodup_singleton _⟩
    rw [alone]
    exact .nil

theorem rewritten_single {target : Config} {news : List String} :
    Rewritten whole [(0, target)] [old] news ↔ ∃ new, Becomes whole (some target) old new ∧ news = [new] := by
  rw [rewritten_cons List.not_mem_nil Nat.zero_lt_one]
  simp [rewritten_nil]

theorem modules_of_reread {again : Manifest} (sound : edited.Sound) (read : ofText edited.text = .ok again) :
    again.modules = edited.modules := by
  rw [ofText_text sound, reread, during_eq_ok, someOr_eq_ok] at read
  obtain ⟨extra, _, made⟩ := Option.bind_eq_some_iff.mp read
  cases made
  rfl

theorem Selects.holdsModule (single : manifest.modules = [old]) {index : Nat} (selects : manifest.Selects name? index) :
    HoldsModule old := by
  obtain ⟨names, read, _⟩ := selects
  rw [single, List.forall₂_cons_left_iff] at read
  obtain ⟨_, _, ⟨bytes, module, text, decoded, _⟩, _⟩ := read
  exact ⟨bytes, module, decodeBase64_eq_ok.mp text, decoded⟩

theorem editedInto_unedited (idle : config.edits = ⟨none, [], []⟩) (single : manifest.modules = [old]) :
    manifest.EditedInto config [(0, config)] edited ↔ HoldsModule old ∧ ∃ dependencies,
      List.Forall₂ Widens manifest.dependencies dependencies ∧
        edited = { manifest with modules := [trimmed old], dependencies } := by
  have idle : (⟨config.moduleName, config.identifiers, config.constants⟩ : Edits) = ⟨none, [], []⟩ := idle
  constructor
  · intro into
    obtain ⟨digest, extra, widens, modules⟩ := into
    rw [single, rewritten_single] at modules
    obtain ⟨new, becomes, written⟩ := modules
    simp only [Becomes, idle, unedited_iff] at becomes
    refine ⟨becomes.1, edited.dependencies, widens, ?_⟩
    rw [← becomes.2, ← written, ← digest, ← extra]
  · intro kept
    obtain ⟨holds, dependencies, widens, whole⟩ := kept
    subst whole
    refine ⟨rfl, rfl, widens, ?_⟩
    rw [single, rewritten_single]
    refine ⟨trimmed old, ?_, rfl⟩
    simp only [Becomes, idle, unedited_iff]
    exact ⟨holds, trivial⟩

end Manifest

open Manifest

theorem editPackage_unedited {config : Config} {text out old : String} {name? : Option String} {manifest : Manifest}
    (idle : config.edits = ⟨none, [], []⟩) (alone : config.modules = []) (read : Manifest.ofText text = .ok manifest)
    (single : manifest.modules = [old]) : editPackage text config name? = .ok out ↔
      manifest.Selects name? 0 ∧ ∃ dependencies, List.Forall₂ Widens manifest.dependencies dependencies ∧
        out = ({ manifest with modules := [trimmed old], dependencies } : Manifest).text := by
  rw [editPackage_eq_ok]
  constructor
  · intro done
    obtain ⟨manifest', targets, edited, read', plan, into, written⟩ := done
    cases read.symm.trans read'
    obtain ⟨index, selects, target⟩ := (plan_of_no_modules alone).mp plan
    -- There is one module, so the one that is selected is the first.
    have inside := selects.lt_length
    rw [single, List.length_singleton, Nat.lt_one_iff] at inside
    subst inside target
    obtain ⟨_, dependencies, widens, whole⟩ := (editedInto_unedited idle single).mp into
    exact ⟨selects, dependencies, widens, whole ▸ written⟩
  · intro kept
    obtain ⟨selects, dependencies, widens, written⟩ := kept
    have plan := (plan_of_no_modules alone).mpr ⟨0, selects, rfl⟩
    have into := (editedInto_unedited idle single).mpr ⟨selects.holdsModule single, dependencies, widens, rfl⟩
    exact ⟨manifest, _, _, read, plan, into, written⟩

/-- Without edits a module in base64 stays the text it is, up to the blanks around it, and anything else is refused. So
does the only module of a package, of which no more than the dependencies changes. -/
theorem edit_unedited {config : Config} (idle : config.edits = ⟨none, [], []⟩) :
    (∀ text out, editModule text config = .ok out ↔ HoldsModule text ∧ out = trimmed text) ∧
    ∀ text manifest old, config.modules = [] → Manifest.ofText text = .ok manifest → manifest.modules = [old] →
      ∀ name? out, (editPackage text config name? = .ok out ↔ manifest.Selects name? 0 ∧ ∃ dependencies,
          List.Forall₂ Widens manifest.dependencies dependencies ∧
            out = ({ manifest with modules := [trimmed old], dependencies } : Manifest).text) ∧
        (editPackage text config name? = .ok out → ∀ again, Manifest.ofText out = .ok again →
          again.modules = [trimmed old]) := by
  constructor
  · intro text out
    rw [editModule_eq_ok, idle, unedited_iff]
  · intro text manifest old alone read single name? out
    have whole : editPackage text config name? = .ok out ↔ _ := editPackage_unedited idle alone read single
    refine ⟨whole, fun done again reread => ?_⟩
    obtain ⟨_, dependencies, _, written⟩ := whole.mp done
    have sound : ({ manifest with modules := [trimmed old], dependencies } : Manifest).Sound :=
      (sound_of_ofText read).of_extra_eq rfl
    rw [written] at reread
    exact modules_of_reread sound reread

def labels : Config where
  moduleName := none
  aliases := [("GREETING", "constant_0")]
  constants := []
  identifiers := []
  modules := []

def paddedText : String :=
  "\x7b\"modules\":[\" oRzrCwYAAAACAQACBwICAAABYQA=\\n\"],\"dependencies\":[\"0x2\"]\x7d"

def unpaddedText : String :=
  "\x7b\n  \"modules\": [\n    \"oRzrCwYAAAACAQACBwICAAABYQA=\"\n  ],\n  \"dependencies\": [\n    " ++
    "\"0x0000000000000000000000000000000000000000000000000000000000000002\"\n  ],\n  \"digest\": []\n\x7d"

theorem edit_unedited_labels : labels.edits = ⟨none, [], []⟩ ∧
    editModule ("\n " ++ encodeBase64 Module.coinBytes ++ " ") labels = .ok (encodeBase64 Module.coinBytes) ∧
    editPackage paddedText labels none = .ok unpaddedText ∧
    ∃ again, Manifest.ofText unpaddedText = .ok again ∧ again.modules = ["oRzrCwYAAAACAQACBwICAAABYQA="] := by
  obtain ⟨single, package⟩ := @edit_unedited labels rfl
  have read : Module.decode Module.coinBytes = .ok Module.coin := by decide +kernel
  have text : Text.trim ("\n " ++ encodeBase64 Module.coinBytes ++ " ").toList = Base64.encode Module.coinBytes := by
    decide +kernel
  have done : editPackage paddedText labels none = .ok unpaddedText := by decide +kernel
  have modules : (Manifest.ofText paddedText).toOption.map Manifest.modules =
      some [" oRzrCwYAAAACAQACBwICAAABYQA=\n"] := by decide +kernel
  have modules' : (Manifest.ofText unpaddedText).toOption.map Manifest.modules =
      some ["oRzrCwYAAAACAQACBwICAAABYQA="] := by decide +kernel
  have bare : trimmed " oRzrCwYAAAACAQACBwICAAABYQA=\n" = "oRzrCwYAAAACAQACBwICAAABYQA=" := by decide +kernel
  obtain ⟨manifest, whole, alone⟩ := Steps.exists_of_map_toOption modules
  obtain ⟨again, reread, _⟩ := Steps.exists_of_map_toOption modules'
  have kept := (package _ manifest _ rfl whole alone none _).2 done again reread
  rw [bare] at kept
  refine ⟨rfl, (single _ _).mpr ⟨⟨_, _, text, read⟩, ?_⟩, done, again, reread, kept⟩
  rw [trimmed, text]
  rfl

end MoveBytecode
