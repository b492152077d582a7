import MoveBytecode.Proofs.Command.Effects
import MoveBytecode.Proofs.Module.Handle
import MoveBytecode.Proofs.Package.Targets

/-! The check of a module as a command. It accepts no text but that of a module, and what is written for a module is
always what was read. Yet a module whose own handle cannot be read is refused: its report has no name to show. -/

set_option autoImplicit false

namespace MoveBytecode

/-- The report shows the name of the module, and that is all that can be missing. -/
theorem exists_summaryLine {bytes : Bytes} {module : Module} :
    (∃ line, summaryLine bytes module = .ok line) ↔ module.HandleReadable := by
  rw [← Module.exists_selfName_iff]
  simp only [summaryLine, Steps.bind_eq_ok, Steps.pure_eq_ok, nameOf_eq_ok]
  constructor
  · intro reported
    obtain ⟨_, name, named, _⟩ := reported
    exact ⟨name, named⟩
  · intro named
    obtain ⟨name, named⟩ := named
    exact ⟨_, name, named, rfl⟩

namespace Host

/-- A module whose text passes the check. -/
structure Verifies (text : String) (bytes : Bytes) (module : Module) : Prop where
  written : Text.trim text.toList = Base64.encode bytes
  read : Module.decode bytes = .ok module
  again : module.encode = .ok bytes
  readable : module.HandleReadable

theorem exists_verified_iff {text : String} :
    (∃ result, verified text = .ok result) ↔ ∃ bytes module, Verifies text bytes module := by
  simp only [verified, Steps.bind_eq_ok, decodeBase64_eq_ok, orCause_eq_ok]
  constructor
  · intro accepted
    obtain ⟨line, bytes, written, _, _, module, read, reported⟩ := accepted
    exact ⟨bytes, module, written, read, Module.encode_of_decode read, exists_summaryLine.mp ⟨line, reported⟩⟩
  · intro verifies
    obtain ⟨bytes, module, written, read, _, readable⟩ := verifies
    -- The check itself has nothing to object to once the bytes were read.
    have checked := verifyModule_of_decode read
    obtain ⟨line, reported⟩ := exists_summaryLine.mpr readable
    exact ⟨line, bytes, written, _, checked, module, read, reported⟩

variable {σ : Type} {host : Host (StateM σ)}

theorem exitCode_run {words : List String} {command : Command} (parsed : Arguments.parse words = .ok command)
    {before : σ} :
    ((host.run words).run before).1.exitCode = 0 ↔ (((host.execute command).run).run before).1 = .ok () := by
  unfold run
  rw [parsed]
  simp only [StateT.run_bind]
  obtain ⟨outcome, middle⟩ := ((host.execute command).run).run before
  cases outcome with
  | ok _ => exact iff_of_true rfl rfl
  | error failure => exact iff_of_false Nat.one_ne_zero nofun

theorem verify_eq_ok {source : Source} {before : σ} {text : String}
    (read : ((host.readSource source).run before).1 = .ok text) :
    (((host.execute (.verify source)).run).run before).1 = .ok () ↔ ∃ remark, verified text = .ok remark := by
  change (((host.verify source).run).run before).1 = .ok () ↔ _
  unfold verify
  rw [ExceptT.run_bind, ExceptT.run_mk, StateT.run_bind]
  revert read
  obtain ⟨outcome, middle⟩ := (host.readSource source).run before
  rintro rfl
  change (((do host.report (statusLine "VERIFY" (← ExceptT.mk (pure (verified text)))) :
    ExceptT Failure (StateM σ) Unit).run).run middle).1 = .ok () ↔ _
  cases verified text with
  | error failure =>
    change Except.error failure = .ok () ↔ _
    exact iff_of_false nofun nofun
  | ok remark => exact iff_of_true rfl ⟨remark, rfl⟩

/-- The command succeeds on a text exactly if it is that of a module whose own handle can be read. -/
theorem exitCode_verify {words : List String} {source : Source} {before : σ} {text : String}
    (parsed : Arguments.parse words = .ok (.verify source))
    (read : ((host.readSource source).run before).1 = .ok text) :
    ((host.run words).run before).1.exitCode = 0 ↔ ∃ bytes module, Verifies text bytes module := by
  rw [exitCode_run parsed, verify_eq_ok read, exists_verified_iff]

def coinFile : Workspace where
  files := [(["coin.b64"], "\n " ++ encodeBase64 Module.coinBytes ++ " ")]
  standardInput := ""

theorem exitCode_verify_coin : Arguments.parse ["verify", "./coin.b64"] = .ok (.verify (.file "./coin.b64")) ∧
    ((Workspace.host.run ["verify", "./coin.b64"]).run coinFile).1.exitCode = 0 := by
  have parsed : Arguments.parse ["verify", "./coin.b64"] = .ok (.verify (.file "./coin.b64")) := by decide +kernel
  have read : ((Workspace.host.readSource (.file "./coin.b64")).run coinFile).1 =
      .ok ("\n " ++ encodeBase64 Module.coinBytes ++ " ") := by decide +kernel
  have named : Module.coin.selfName = .ok (some "coin") := by decide +kernel
  exact ⟨parsed, (exitCode_verify parsed read).mpr ⟨Module.coinBytes, Module.coin, by decide +kernel, by decide +kernel,
    by decide +kernel, Module.exists_selfName_iff.mp ⟨_, named⟩⟩⟩

/-- A module of one handle that takes the second one for its own. -/
def stray : Module where
  header := Module.coin.header
  directory := [.moduleHandles, .identifiers]
  layout := [.moduleHandles, .identifiers]
  identifiers := ["a"]
  addresses := []
  constants := []
  rawTables := [(.moduleHandles, [0, 0])]
  selfHandle := some 1

def strayBytes : Bytes :=
  [0xA1, 0x1C, 0xEB, 0x0B, 6, 0, 0, 0, 2, 0x01, 0, 2, 0x07, 2, 2, 0, 0, 1, 0x61, 1]

/-- It is written as it was read, and is refused nevertheless. -/
theorem verify_stray : Text.trim (encodeBase64 strayBytes).toList = Base64.encode strayBytes ∧
    Module.decode strayBytes = .ok stray ∧ stray.encode = .ok strayBytes ∧ stray.encodeChecked = .ok strayBytes ∧
    ((Workspace.ofFiles [] (encodeBase64 strayBytes)).run ["verify"]).1.exitCode = 1 := by
  decide +kernel

end Host

end MoveBytecode
