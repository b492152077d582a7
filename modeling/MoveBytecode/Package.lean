import MoveBytecode.Report

/-! Packages of modules in base64 with the addresses of the packages they depend on. -/

set_option autoImplicit false

namespace MoveBytecode

/-- The members of a manifest that are not its own stay with it, by key. -/
structure Manifest where
  modules : List String
  dependencies : List String
  digest : List UInt8
  extra : List (String × Json)
  deriving Repr

namespace Manifest

def ofTree? : Json.Tree → Option Manifest
  | .object members => do
    let (known, others) ← Json.Tree.partition? ["modules", "dependencies", "digest"] members
    let extra ← others.mapM fun (key, value) => do return (key, ← value.json?)
    return {
      modules := ← (← known.value? "modules").strings?
      dependencies := ← Json.Tree.fieldOr [] Json.Tree.strings? (known.value? "dependencies")
      digest := ← Json.Tree.fieldOr [] Json.Tree.bytes? (known.value? "digest")
      extra := Json.sortMembers extra }
  | _ => none

def ofText (text : String) : Except Failure Manifest :=
  during .parsingManifest <| someOr (.of .json) do
    let tree ← Json.Tree.ofText? text
    if tree.depth ≤ Json.Tree.maxDepth then ofTree? tree else none

def json (manifest : Manifest) : Json := .object (
  [("modules", .ofTexts manifest.modules),
    ("dependencies", .ofTexts manifest.dependencies),
    ("digest", .array (manifest.digest.map fun byte => .ofNat byte.toNat))] ++ manifest.extra)

def text (manifest : Manifest) : String := manifest.json.prettyText

def widen : List String → List String × Except Failure Unit
  | [] => ([], .ok ())
  | first :: rest =>
    match Address.ofShortHex first with
    | .error error => (first :: rest, .error ⟨[.wideningDependency first], .address error⟩)
    | .ok address =>
      let (widened, outcome) := widen rest
      (String.ofList address.display :: widened, outcome)

def widenDependencies (manifest : Manifest) : Manifest × Except Failure Unit :=
  let (dependencies, outcome) := widen manifest.dependencies
  ({ manifest with dependencies }, outcome)

def moduleName (index : Nat) (text : String) : Except Failure (Option String) := do
  let bytes ← during (.handlingModule index) (decodeBase64 text)
  let module ← during (.handlingModule index) (orCause .decode (Module.decode bytes))
  nameOf module

def moduleNames (manifest : Manifest) : Except Failure (List (Option String)) :=
  manifest.modules.zipIdx.mapM fun (text, index) => moduleName index text

/-- The first module of a name, or without a name the only module there is. -/
def select (manifest : Manifest) (name? : Option String) : Except Failure Nat := do
  let names ← manifest.moduleNames
  match name? with
  | some name => someOr (.of (.refused (.noSuchModule name))) (names.findIdx? (· = some name))
  | none => if names.length = 1 then return 0 else throw (.of (.refused (.severalModules names.length)))

def apply (manifest : Manifest) (index : Nat) (edits : Edits) (aliases : Aliases) : Except Failure Manifest := do
  let text ← someOr (.of (.refused (.noSuchIndex index))) manifest.modules[index]?
  let bytes ← decodeBase64 text
  let edited ← during (.handlingModule index) (orCause .ofTemplate (instantiate bytes edits aliases))
  return { manifest with modules := manifest.modules.set index (encodeBase64 edited) }

/-- The modules to edit, each with its configuration, in the order in which they are edited. -/
abbrev Targets := List (Nat × Config)

/-- The configuration as a whole has a target unless it serves only to hold those of modules. -/
def ownTarget (manifest : Manifest) (config : Config) (name? : Option String) : Except Failure Targets := do
  if config.modules.isEmpty || config.hasEdits || name?.isSome then return [(← manifest.select name?, config)]
  else return []

def addTarget (manifest : Manifest) (targets : Targets) : String × Config → Except Failure Targets
  | (name, config) => do
    if !config.modules.isEmpty then throw (.of (.refused (.nestedModules name)))
    let index ← manifest.select (some name)
    if targets.any fun (other, _) => other = index then throw (.of (.refused (.targetedTwice name)))
    return targets ++ [(index, config)]

/-- All names are those of the modules before any edit. -/
def targets (manifest : Manifest) (config : Config) (name? : Option String) : Except Failure Targets := do
  config.modules.foldlM manifest.addTarget (← manifest.ownTarget config name?)

end Manifest

/-- The text of a package with its targets edited and its dependencies in full length. -/
def editPackage (text : String) (config : Config) (name? : Option String) : Except Failure String := do
  let manifest ← Manifest.ofText text
  let targets ← manifest.targets config name?
  let edited ← targets.foldlM (fun manifest (index, target) =>
    manifest.apply index target.edits (target.aliasesOr config)) manifest
  let (widened, outcome) := edited.widenDependencies
  outcome
  return widened.text

end MoveBytecode
