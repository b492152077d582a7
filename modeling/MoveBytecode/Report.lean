import MoveBytecode.Base64
import MoveBytecode.Config
import MoveBytecode.Crc32
import MoveBytecode.Failure
import MoveBytecode.Text
import MoveBytecode.View

/-! The tasks on one module in base64: showing it, making another out of it, and checking that it is written as it
was read. -/

set_option autoImplicit false

namespace MoveBytecode

def decodeBase64 (text : String) : Except Failure Bytes :=
  during .decodingBase64 (someOr (.of .base64) (Base64.decode? (Text.trim text.toList)))

def Config.ofText (text : String) : Except Failure Config :=
  during .parsingConfig (someOr (.of .json) (Config.ofText? text))

def encodeBase64 (bytes : Bytes) : String := String.ofList (Base64.encode bytes)

def decodeModule (bytes : Bytes) : Except Failure Module :=
  during .decodingModule (orCause .decode (Module.decode bytes))

/-- The name the module's own handle gives; a handle that cannot be read is a fault of the module's bytes. -/
def nameOf (module : Module) : Except Failure (Option String) :=
  orCause (fun cause => .decode (.read cause)) module.selfName

def summaryLine (bytes : Bytes) (module : Module) : Except Failure String := do
  let name ← nameOf module
  return s!"v{module.header.version} flavor={module.header.flavor} {bytes.length} B " ++
    s!"crc32={String.ofList (Crc32.hex (Crc32.checksum bytes))} tables={module.directory.length} " ++
    s!"identifiers={module.identifiers.length} constants={module.constants.length} name={View.nameOrMark name}"

inductive ReportFormat where
  | listing
  | json
  | summary
  deriving DecidableEq, Repr

def inspectModule (text : String) (format : ReportFormat) (aliases : Aliases) : Except Failure String := do
  let bytes ← decodeBase64 text
  let module ← decodeModule bytes
  match format with
  | .summary => return (← summaryLine bytes module) ++ "\n"
  | .json => return (← orCause .ofTemplate (View.ofModule module aliases)).json.prettyText ++ "\n"
  | .listing => return (← orCause .ofTemplate (View.ofModule module aliases)).listing

def editModule (text : String) (config : Config) : Except Failure String := do
  let bytes ← decodeBase64 text
  let edited ← during .instantiating (orCause .ofTemplate (instantiate bytes config.edits config.aliases))
  return encodeBase64 edited

/-- The first place where two byte strings differ, which is the end of the shorter one where nothing else does. -/
def firstDifference : Bytes → Bytes → Nat
  | first :: firsts, second :: seconds => if first = second then firstDifference firsts seconds + 1 else 0
  | _, _ => 0

/-- The module is written as it was read, and what is written reads back. -/
def verifyModule (bytes : Bytes) : Except Failure Unit := do
  let module ← decodeModule bytes
  let written ← orCause .encode module.encode
  if written ≠ bytes then
    throw (.of (.refused (.differsFrom (firstDifference written bytes) written.length bytes.length)))
  let _ ← orCause .encode module.encodeChecked

end MoveBytecode
