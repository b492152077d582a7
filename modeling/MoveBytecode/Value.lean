import MoveBytecode.Address
import MoveBytecode.Ty

/-! The values of constants and their payloads: one byte for a boolean, little-endian numbers, addresses as they
are, and vectors as a count before the elements. -/

set_option autoImplicit false

namespace MoveBytecode

inductive Value where
  | bool (value : Bool)
  | uint (width : Width) (value : Nat)
  | address (value : Address)
  | vector (items : List Value)
  deriving Repr

inductive PayloadError where
  | read (cause : ReadError)
  | boolByte (byte : UInt8)
  | unread (count : Nat)
  deriving DecidableEq, Repr

/-- A payload on its own counts as that of constant 0. -/
def PayloadError.message : PayloadError → String
  | .read cause => cause.message
  | .boolByte byte => s!"constant 0: payload does not match its type (bool byte {byte})"
  | .unread count => s!"trailing bytes or gap: {count} unread payload bytes"

namespace Value

mutual

def decEq : (first second : Value) → Decidable (first = second)
  | .bool first, .bool second =>
    if same : first = second then isTrue (congrArg _ same) else isFalse fun equal => same (by injection equal)
  | .uint width first, .uint width' second =>
    if same : width = width' ∧ first = second then isTrue (by rw [same.1, same.2])
    else isFalse fun equal => same (by injection equal with widths values; exact ⟨widths, values⟩)
  | .address first, .address second =>
    if same : first = second then isTrue (congrArg _ same) else isFalse fun equal => same (by injection equal)
  | .vector first, .vector second =>
    match decEqAll first second with
    | isTrue same => isTrue (congrArg _ same)
    | isFalse differ => isFalse fun equal => differ (by injection equal)
  | .bool _, .uint .. | .bool _, .address _ | .bool _, .vector _
  | .uint .., .bool _ | .uint .., .address _ | .uint .., .vector _
  | .address _, .bool _ | .address _, .uint .. | .address _, .vector _
  | .vector _, .bool _ | .vector _, .uint .. | .vector _, .address _ => isFalse fun equal => by injection equal

def decEqAll : (first second : List Value) → Decidable (first = second)
  | [], [] => isTrue rfl
  | [], _ :: _ => isFalse fun equal => by injection equal
  | _ :: _, [] => isFalse fun equal => by injection equal
  | first :: firsts, second :: seconds =>
    match decEq first second, decEqAll firsts seconds with
    | isTrue same, isTrue rest => isTrue (by rw [same, rest])
    | isFalse differ, _ => isFalse fun equal => differ (by injection equal)
    | _, isFalse differ => isFalse fun equal => differ (by injection equal)

end

instance : DecidableEq Value := decEq

def read : Ty → Reader PayloadError Value
  | .bool => do
    match (← Reader.byte.mapError .read) with
    | 0 => return .bool false
    | 1 => return .bool true
    | byte => throw (.boolByte byte)
  | .uint width => do return .uint width (← (Reader.littleEndian width.bytes).mapError .read)
  | .address => do return .address (.ofBlock (← (Reader.block 32).mapError .read))
  | .vector element => do
    let count ← Reader.uleb32.mapError .read
    return .vector (← Reader.many (read element) count)

def ofPayload (ty : Ty) : Bytes → Except PayloadError Value := Reader.value do
  let value ← read ty
  let remaining := (← get).rest.length
  if remaining ≠ 0 then throw (.unread remaining)
  return value

mutual

def payload : Value → Bytes
  | .bool value => [if value then 1 else 0]
  | .uint width value => LittleEndian.encode width.bytes value
  | .address value => value.bytes
  | .vector items => Uleb128.encode items.length ++ payloads items

def payloads : List Value → Bytes
  | [] => []
  | first :: rest => first.payload ++ payloads rest

end

end Value

end MoveBytecode
