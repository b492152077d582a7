import MoveBytecode.Module

/-! Renaming identifiers and replacing constants in place. An editor checks everything before it writes anything. Other
tables name identifiers and constants by index and stay as they are. -/

set_option autoImplicit false

namespace MoveBytecode

inductive EditError where
  | typeMismatch (index : Nat) (cause : Value.ParseError)
  | invalidIdentifier (name : String)
  | indexOutOfRange (table : TableKind) (index length : Nat)
  | duplicateIdentifier (name : String) (existing : Nat)
  | unknownConstant (key : String)
  | unknownIdentifier (name : String)
  | missingSelfHandle
  | unreadableModuleHandles (cause : ReadError)
  deriving DecidableEq, Repr

namespace EditError

def message : EditError → String
  | typeMismatch index cause => s!"constant {index}: {cause.message}"
  | invalidIdentifier name => s!"invalid identifier `{name}`"
  | indexOutOfRange table index length => s!"{table.name} index {index} out of range (len {length})"
  | duplicateIdentifier name existing => s!"identifier `{name}` already exists at index {existing}"
  | unknownConstant key => s!"no constant named `{key}`"
  | unknownIdentifier name => s!"no identifier `{name}` in module"
  | missingSelfHandle => "module has no self module handle"
  | unreadableModuleHandles cause => s!"module handles unreadable: {cause.message}"

def causeMessage? : EditError → Option String
  | typeMismatch _ cause => some cause.message
  | unreadableModuleHandles cause => some cause.message
  | _ => none

end EditError

namespace Identifier

def startsName (c : Char) : Bool := c.isAlpha || c = '_'

def continuesName (c : Char) : Bool := c.isAlphanum || c = '_'

/-- A letter or low line before letters, digits and low lines, all of them ASCII. -/
def isValid (name : String) : Bool :=
  match name.toList with
  | [] => false
  | first :: rest => startsName first && rest.all continuesName

def upperCase (name : String) : String := String.ofList (name.toList.map Char.toUpper)

end Identifier

abbrev Renames := List (Nat × String)

namespace Renames

def set (index : Nat) (name : String) : Renames → Renames
  | [] => [(index, name)]
  | (first, old) :: rest =>
    if index < first then (index, name) :: (first, old) :: rest
    else if index = first then (index, name) :: rest
    else (first, old) :: set index name rest

/-- One name for each index, the last that was given, in the order of the indices. -/
def settled (renames : Renames) : Renames :=
  renames.foldl (fun settled (index, name) => settled.set index name) []

def apply (renames : Renames) (identifiers : List String) : List String :=
  identifiers.mapIdx fun index old => (renames.lookup index).getD old

def fault? (length : Nat) : Nat × String → Option EditError
  | (index, name) =>
    if index ≥ length then some (.indexOutOfRange .identifiers index length)
    else if Identifier.isValid name then none
    else some (.invalidIdentifier name)

/-- Another place where the identifiers have the new name of an entry. -/
def clash? (identifiers : List String) : Nat × String → Option EditError
  | (index, name) =>
    (identifiers.zipIdx.find? fun (other, place) => place ≠ index ∧ other = name).map fun (_, place) =>
      .duplicateIdentifier name place

end Renames

/-- An editor works on a module in place, so it leaves one behind even where it is refused. -/
abbrev Editor := EStateM EditError Module Unit

namespace Editor

def outcome (editor : Editor) (module : Module) : Except EditError Module :=
  match editor module with
  | .ok () edited => .ok edited
  | .error error _ => .error error

def left (editor : Editor) (module : Module) : Module :=
  match editor module with
  | .ok () left | .error _ left => left

def check (finding? : Nat × String → Option EditError) (entry : Nat × String) : Editor :=
  match finding? entry with
  | some error => throw error
  | none => pure ()

def write (entry : Nat × String) : Editor :=
  modify fun module => { module with identifiers := module.identifiers.set entry.1 entry.2 }

/-- All renames at once: names are compared as they stand after the batch, so two may be exchanged. -/
def rename (renames : Renames) : Editor := do
  let settled := renames.settled
  let module ← get
  settled.forM (check (Renames.fault? module.identifiers.length))
  settled.forM (check (Renames.clash? (settled.apply module.identifiers)))
  settled.forM write

end Editor

namespace Module

def rename (module : Module) (renames : Renames) : Except EditError Module := (Editor.rename renames).outcome module

def renameIdentifier (module : Module) (index : Nat) (name : String) : Except EditError Module :=
  module.rename [(index, name)]

/-- The renames that go with a new name of the module: its own, and that of the identifier which is its old name in
capitals, if there is one at another index. -/
def selfRenames (module : Module) (name : String) : Except EditError Renames :=
  match module.selfNameIndex with
  | .error cause => .error (.unreadableModuleHandles cause)
  | .ok index? =>
    match index?.bind fun index => (module.identifiers[index]?).map fun old => (index, old) with
    | none => .error .missingSelfHandle
    | some (index, old) =>
      let witness := (module.identifierIndex? (Identifier.upperCase old)).filter (· ≠ index)
      .ok ((index, name) :: witness.toList.map fun place => (place, Identifier.upperCase name))

end Module

namespace Editor

def renameSelf (name : String) : Editor := do
  match (← get).selfRenames name with
  | .error error => throw error
  | .ok renames => rename renames

def replaceConstant (index : Nat) (text : String) : Editor := do
  let module ← get
  match module.constants[index]? with
  | none => throw (.indexOutOfRange .constantPool index module.constants.length)
  | some constant =>
    match Value.parse constant.ty text with
    | .error cause => throw (.typeMismatch index cause)
    | .ok value => set { module with constants := module.constants.set index { constant with value } }

end Editor

namespace Module

def renameSelf (module : Module) (name : String) : Except EditError Module := (Editor.renameSelf name).outcome module

def replaceConstant (module : Module) (index : Nat) (text : String) : Except EditError Module :=
  (Editor.replaceConstant index text).outcome module

end Module

end MoveBytecode
