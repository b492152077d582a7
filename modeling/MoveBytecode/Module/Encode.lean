import MoveBytecode.Module.Decode

/-! The bytes of a module: tables in layout order, each where the one before it ends, under a directory in its own
order. -/

set_option autoImplicit false

namespace MoveBytecode

/-- How a module read back from its own encoding may differ from it. -/
inductive Discrepancy where
  | notLaidOut (kind : TableKind)
  | unreadable (error : DecodeError)
  | header (written read : Header)
  | tableOrder
  | identifiers
  | addresses
  | constant (index : Nat)
  | constantCount
  | rawTable
  | selfHandle
  deriving DecidableEq, Repr

def Header.describe (header : Header) : String :=
  s!"Header \x7b version: {header.version}, flavor: {header.flavor} \x7d"

def Discrepancy.message : Discrepancy → String
  | notLaidOut kind => s!"{kind.name} listed but not laid out"
  | unreadable error => s!"output does not decode: {error.message}"
  | header written read => s!"header {written.describe} became {read.describe}"
  | tableOrder => "table order changed"
  | identifiers => "identifiers changed"
  | addresses => "address identifiers changed"
  | constant index => s!"constant {index} changed"
  | constantCount => "constant count changed"
  | rawTable => "opaque table changed"
  | selfHandle => "self handle changed"

inductive EncodeError where
  | invariant (detail : Discrepancy)
  | tableTooLarge (kind : TableKind) (length : Nat)
  deriving DecidableEq, Repr

def EncodeError.message : EncodeError → String
  | invariant detail => s!"encode invariant violated: {detail.message}"
  | tableTooLarge kind length => s!"{kind.name} grew to {length} bytes, beyond the format limit"

namespace Module

def table (module : Module) : TableKind → Bytes
  | .identifiers => module.identifiers.flatMap fun name => Uleb128.lengthPrefixed (Bytes.ofText name)
  | .addressIdentifiers => module.addresses.flatMap Address.bytes
  | .constantPool => module.constants.flatMap Constant.encode
  | kind => (module.rawTable? kind).getD []

/-- The tables of these kinds from an offset on; offsets and lengths must fit in 32 bits. -/
def place (module : Module) : Nat → List TableKind → Except EncodeError (List (Entry × Bytes))
  | _, [] => .ok []
  | offset, kind :: rest => do
    let bytes := module.table kind
    let length := bytes.length
    if offset ≥ Nat.pow 2 32 then throw (.tableTooLarge kind offset)
    if length ≥ Nat.pow 2 32 then throw (.tableTooLarge kind length)
    return (⟨kind, offset, length⟩, bytes) :: (← module.place (offset + length) rest)

def placed (module : Module) : Except EncodeError (List (Entry × Bytes)) := module.place 0 module.layout

def listed (module : Module) (placed : List (Entry × Bytes)) : Except EncodeError (List Entry) :=
  module.directory.mapM fun kind =>
    match placed.find? fun (entry, _) => entry.kind = kind with
    | some (entry, _) => .ok entry
    | none => .error (.invariant (.notLaidOut kind))

def entries (module : Module) : Except EncodeError (List Entry) := do module.listed (← module.placed)

def encode (module : Module) : Except EncodeError Bytes := do
  let placed ← module.placed
  let entries ← module.listed placed
  return Container.magic ++ LittleEndian.encode 4 module.header.word ++ Uleb128.encode entries.length ++
    (entries.flatMap fun entry => entry.kind.byte :: Uleb128.encode entry.offset ++ Uleb128.encode entry.length) ++
    placed.flatMap Prod.snd ++ (module.selfHandle.map Uleb128.encode).getD []

/-- The first part in which two modules differ, the handle being the last there is. -/
def firstDiscrepancy (written read : Module) : Discrepancy :=
  if written.header ≠ read.header then .header written.header read.header
  else if written.directory ≠ read.directory ∨ written.layout ≠ read.layout then .tableOrder
  else if written.identifiers ≠ read.identifiers then .identifiers
  else if written.addresses ≠ read.addresses then .addresses
  else
    match (List.range written.constants.length).find? fun index =>
        written.constants[index]? ≠ read.constants[index]? with
    | some index => .constant index
    | none =>
      if written.constants.length ≠ read.constants.length then .constantCount
      else if written.rawTables ≠ read.rawTables then .rawTable
      else .selfHandle

def encodeChecked (module : Module) : Except EncodeError Bytes := do
  let bytes ← module.encode
  match decode bytes with
  | .error error => throw (.invariant (.unreadable error))
  | .ok read => if read = module then return bytes else throw (.invariant (module.firstDiscrepancy read))

end Module

end MoveBytecode
