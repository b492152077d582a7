import MoveBytecode.Module

/-! The module that a byte string holds: the tables of its container are read in the order of the directory, and
the first fault is the answer. -/

set_option autoImplicit false

namespace MoveBytecode.Module

/-- An entry that needs more bytes than its table has left is a gap. -/
def overrun (gap : Gap) : ReadError → DecodeError
  | .outOfBounds .. => .gap gap
  | error => .read error

def readIdentifier (index : Nat) : Reader DecodeError String := do
  let bytes ← Reader.lengthPrefixed.mapError (overrun (.identifierOverrun index))
  Reader.ofOption (.invalidUtf8 index) bytes.toText?

def readConstant (index : Nat) : Reader DecodeError Constant := do
  let ty ← Ty.read.mapError fun
    | .truncated => .gap (.truncatedType index)
    | .tooDeep => .typeNestingTooDeep index
    | .unsupported byte => .unsupportedConstantType index byte
  let payload ← Reader.lengthPrefixed.mapError (overrun (.constantOverrun index))
  return ⟨ty, ← Reader.ofExcept (.malformedConstant index) (Value.ofPayload ty payload)⟩

def readAddress : Reader ReadError Address := do return .ofBlock (← Reader.block 32)

def decodeIdentifiers (table : Bytes) : Except DecodeError (List String) := (Reader.toEnd readIdentifier).value table

def decodeConstants (table : Bytes) : Except DecodeError (List Constant) := (Reader.toEnd readConstant).value table

def decodeAddresses (table : Bytes) : Except DecodeError (List Address) :=
  match (Reader.toEnd fun _ => readAddress).value table with
  | .ok addresses => .ok addresses
  | .error _ => .error (.gap (.addressTable table.length))

def addTable (module : Module) (kind : TableKind) (table : Bytes) : Except DecodeError Module :=
  match kind with
  | .identifiers => do return { module with identifiers := ← decodeIdentifiers table }
  | .addressIdentifiers => do return { module with addresses := ← decodeAddresses table }
  | .constantPool => do return { module with constants := ← decodeConstants table }
  | kind => .ok { module with rawTables := module.rawTables ++ [(kind, table)] }

def unread (container : Container) : Module where
  header := container.header
  directory := container.entries.map Entry.kind
  layout := (Container.byOffset container.entries).map Entry.kind
  identifiers := []
  addresses := []
  constants := []
  rawTables := []
  selfHandle := container.selfHandle

def ofContainer (container : Container) : Except DecodeError Module :=
  container.entries.foldlM (fun module entry => module.addTable entry.kind (container.slice entry)) (unread container)

def decode (bytes : Bytes) : Except DecodeError Module := do ofContainer (← Container.ofBytes bytes)

end MoveBytecode.Module
