import MoveBytecode.Container
import MoveBytecode.Value.Text

/-! A module with the contents of its identifier, address and constant tables; the other tables stay bytes. -/

set_option autoImplicit false

namespace MoveBytecode

structure Constant where
  ty : Ty
  value : Value
  deriving DecidableEq, Repr

def Constant.display (constant : Constant) : String := constant.value.display constant.ty

def Constant.encode (constant : Constant) : Bytes :=
  constant.ty.encode ++ Uleb128.lengthPrefixed constant.value.payload

/-- The directory has the kinds in the order of their entries, the layout in the order of their bytes. -/
structure Module where
  header : Header
  directory : List TableKind
  layout : List TableKind
  identifiers : List String
  addresses : List Address
  constants : List Constant
  rawTables : List (TableKind × Bytes)
  selfHandle : Option Nat
  deriving DecidableEq, Repr

namespace Module

def rawTable? (module : Module) (kind : TableKind) : Option Bytes := module.rawTables.lookup kind

def hasTable (module : Module) (kind : TableKind) : Bool := module.directory.contains kind

def identifierIndex? (module : Module) (name : String) : Option Nat := module.identifiers.findIdx? (· = name)

/-- Handles are read one after another, each an address index before a name index, until the one at `target`. -/
def handleName (target : Nat) : (rounds index : Nat) → Reader ReadError (Option Nat)
  | 0, _ => return none
  | rounds + 1, index => do
    let _ ← Reader.uleb32
    let name ← Reader.uleb32
    if index = target then return some name
    handleName target rounds (index + 1)

def selfNameIndex (module : Module) : Except ReadError (Option Nat) :=
  match module.rawTable? .moduleHandles with
  | none => .ok none
  | some table =>
    let target := module.selfHandle.getD 0
    (handleName target (target + 1) 0).value table

def selfName (module : Module) : Except ReadError (Option String) := do
  return (← module.selfNameIndex).bind fun index => module.identifiers[index]?

end Module

end MoveBytecode
