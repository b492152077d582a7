import MoveBytecode.TableKind
import MoveBytecode.Value

/-! Why a byte string is no module. -/

set_option autoImplicit false

namespace MoveBytecode

inductive Gap where
  | misplaced (kind : TableKind) (offset expected : Nat)
  | afterModule (count : Nat)
  | addressTable (length : Nat)
  | truncatedType (index : Nat)
  | identifierOverrun (index : Nat)
  | constantOverrun (index : Nat)
  deriving DecidableEq, Repr

def Gap.message : Gap → String
  | misplaced kind offset expected =>
    s!"{kind.name} starts at {offset} but the previous table ends at {expected}"
  | afterModule count => s!"{count} bytes after the module end"
  | addressTable length => s!"address table length {length} is not a multiple of 32"
  | truncatedType index => s!"constant {index}: truncated type tag"
  | identifierOverrun index => s!"identifier {index} runs past its table"
  | constantOverrun index => s!"constant {index} runs past its table"

inductive DecodeError where
  | read (cause : ReadError)
  | badMagic (found : Bytes)
  | unsupportedVersion (version : Nat)
  | gap (detail : Gap)
  | unknownTableKind (byte : UInt8)
  | duplicateTable (kind : TableKind)
  | invalidUtf8 (index : Nat)
  | unsupportedConstantType (index : Nat) (byte : UInt8)
  | typeNestingTooDeep (index : Nat)
  | malformedConstant (index : Nat) (detail : PayloadError)
  deriving DecidableEq, Repr

def DecodeError.message : DecodeError → String
  | read cause => cause.message
  | badMagic found => s!"bad magic: expected a11ceb0b, found {String.ofList (Hex.encode found)}"
  | unsupportedVersion version => s!"unsupported format version {version}"
  | gap detail => s!"trailing bytes or gap: {detail.message}"
  | unknownTableKind byte => s!"unknown table kind 0x{String.ofList (Hex.digits byte)}"
  | duplicateTable kind => s!"duplicate table {kind.name}"
  | invalidUtf8 index => s!"identifier {index} is not valid utf-8"
  | unsupportedConstantType index byte =>
    s!"constant {index}: unsupported type tag 0x{String.ofList (Hex.digits byte)}"
  | typeNestingTooDeep index => s!"constant {index}: type nesting deeper than {Ty.maxNesting}"
  | malformedConstant index detail =>
    s!"constant {index}: payload does not match its type ({detail.message})"

end MoveBytecode
