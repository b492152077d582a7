import MoveBytecode.Json.Tree
import MoveBytecode.Template

/-! Configurations of templates: edits with labels for constants, and configurations of their own for the modules of
a package, by name. -/

set_option autoImplicit false

namespace MoveBytecode

structure Config where
  moduleName : Option String
  aliases : Aliases
  constants : Dictionary String
  identifiers : Dictionary String
  modules : List (String × Config)
  deriving Repr

namespace Edits

def json (edits : Edits) : Json := .object [
  ("module_name", .ofOption edits.moduleName),
  ("identifiers", .ofDictionary edits.identifiers),
  ("constants", .ofDictionary edits.constants)]

def ofTree? (tree : Json.Tree) : Option Edits := do
  match (← tree.fields? ["module_name", "identifiers", "constants"] true) with
  | [moduleName, identifiers, constants] =>
    return {
      moduleName := ← Json.Tree.fieldOr none Json.Tree.stringOrNull? moduleName
      identifiers := ← Json.Tree.fieldOr [] (Json.Tree.dictionary? Json.Tree.string?) identifiers
      constants := ← Json.Tree.fieldOr [] (Json.Tree.dictionary? Json.Tree.string?) constants }
  | _ => none

/-- Members that are no fields of edits are skipped, whatever they hold. -/
def ofText? (text : String) : Option Edits := do ofTree? (← Json.Tree.ofText? text)

end Edits

namespace Config

def edits (config : Config) : Edits := ⟨config.moduleName, config.identifiers, config.constants⟩

def hasEdits (config : Config) : Bool := !config.edits.isEmpty

/-- The labels of a configuration without any are those of the one it is part of. -/
def aliasesOr (config whole : Config) : Aliases :=
  if config.aliases.isEmpty then whole.aliases else config.aliases

mutual

def json : Config → Json
  | ⟨moduleName, aliases, constants, identifiers, modules⟩ => .object [
    ("module_name", .ofOption moduleName),
    ("aliases", .ofDictionary aliases),
    ("constants", .ofDictionary constants),
    ("identifiers", .ofDictionary identifiers),
    ("modules", .object (jsonMembers modules))]

def jsonMembers : List (String × Config) → List (String × Json)
  | [] => []
  | (name, config) :: rest => (name, config.json) :: jsonMembers rest

end

def ofTree? : Nat → Json.Tree → Option Config
  | 0, _ => none
  | levels + 1, tree => do
    match (← tree.fields? ["module_name", "aliases", "constants", "identifiers", "modules"] false) with
    | [moduleName, aliases, constants, identifiers, modules] =>
      return {
        moduleName := ← Json.Tree.fieldOr none Json.Tree.stringOrNull? moduleName
        aliases := ← Json.Tree.fieldOr [] (Json.Tree.dictionary? Json.Tree.string?) aliases
        constants := ← Json.Tree.fieldOr [] (Json.Tree.dictionary? Json.Tree.string?) constants
        identifiers := ← Json.Tree.fieldOr [] (Json.Tree.dictionary? Json.Tree.string?) identifiers
        modules := ← Json.Tree.fieldOr [] (Json.Tree.dictionary? (ofTree? levels)) modules }
    | _ => none

/-- A member that is no field is refused, and so is a text nested too deeply. -/
def ofText? (text : String) : Option Config := do
  let tree ← Json.Tree.ofText? text
  if tree.depth ≤ Json.Tree.maxDepth then ofTree? (tree.depth + 1) tree else none

end Config

end MoveBytecode
