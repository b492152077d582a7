import MoveBytecode.Alias
import MoveBytecode.Module.Edit
import MoveBytecode.Module.Encode

/-! The edits that make a module out of a template, applied as one. -/

set_option autoImplicit false

namespace MoveBytecode

structure Edits where
  moduleName : Option String
  identifiers : Dictionary String
  constants : Dictionary String
  deriving DecidableEq, Repr

inductive TemplateError where
  | decode (cause : DecodeError)
  | edit (cause : EditError)
  | encode (cause : EncodeError)
  deriving DecidableEq, Repr

namespace Edits

def isEmpty (edits : Edits) : Bool :=
  edits.moduleName.isNone && edits.identifiers.isEmpty && edits.constants.isEmpty

/-- The renames of the whole batch, an identifier by its first index in the module as it is. -/
def renames (edits : Edits) (module : Module) : Except EditError Renames := do
  let own ← match edits.moduleName with
    | none => pure []
    | some name => module.selfRenames name
  let named ← edits.identifiers.mapM fun (old, new) =>
    match module.identifierIndex? old with
    | some index => pure (index, new)
    | none => throw (.unknownIdentifier old)
  return own ++ named

def replaceOne (aliases : Aliases) (module : Module) : String × String → Except EditError Module
  | (key, text) =>
    match (aliases.resolve key).filter (· < module.constants.length) with
    | some index => module.replaceConstant index text
    | none => .error (.unknownConstant key)

/-- The renames as one batch, then the constants in the order of their keys. -/
def apply (edits : Edits) (module : Module) (aliases : Aliases) : Except EditError Module := do
  let renamed ← module.rename (← edits.renames module)
  edits.constants.foldlM (replaceOne aliases) renamed

end Edits

/-- The bytes of the module that the edits make out of a template, checked to read back. -/
def instantiate (bytes : Bytes) (edits : Edits) (aliases : Aliases) : Except TemplateError Bytes :=
  match Module.decode bytes with
  | .error cause => .error (.decode cause)
  | .ok module =>
    match edits.apply module aliases with
    | .error cause => .error (.edit cause)
    | .ok edited =>
      match edited.encodeChecked with
      | .error cause => .error (.encode cause)
      | .ok bytes => .ok bytes

end MoveBytecode
