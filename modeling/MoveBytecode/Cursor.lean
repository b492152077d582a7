import MoveBytecode.Uleb128

/-! Sequential reading of a byte string. A step that fails leaves the cursor where it stopped: a fixed-width step
has then consumed nothing, a number its groups up to the faulty one, a length prefix the length. -/

set_option autoImplicit false

namespace MoveBytecode

structure Cursor where
  offset : Nat
  rest : Bytes
  deriving DecidableEq, Repr

inductive ReadError where
  | outOfBounds (needed offset remaining : Nat)
  | malformedUleb128 (offset : Nat)
  deriving DecidableEq, Repr

def ReadError.message : ReadError → String
  | .outOfBounds needed offset remaining =>
    s!"out of bounds: need {needed} bytes at offset {offset}, {remaining} remaining"
  | .malformedUleb128 offset => s!"malformed ULEB128 at offset {offset}"

abbrev Reader (ε : Type) := EStateM ε Cursor

namespace Reader

variable {ε ε' α : Type}

def start (bytes : Bytes) : Cursor := ⟨0, bytes⟩

/-- What a reader makes of a byte string from its first byte on. -/
def value (reader : Reader ε α) (bytes : Bytes) : Except ε α :=
  match reader (start bytes) with
  | .ok result _ => .ok result
  | .error error _ => .error error

def mapError (convert : ε → ε') (reader : Reader ε α) : Reader ε' α := fun cursor =>
  match reader cursor with
  | .ok result next => .ok result next
  | .error error next => .error (convert error) next

def ofOption (error : ε) : Option α → Reader ε α
  | some result => return result
  | none => throw error

def ofExcept (convert : ε → ε') : Except ε α → Reader ε' α
  | .ok result => return result
  | .error error => throw (convert error)

def byte : Reader ReadError UInt8 := fun cursor =>
  match cursor.rest with
  | [] => .error (.outOfBounds 1 cursor.offset 0) cursor
  | first :: rest => .ok first ⟨cursor.offset + 1, rest⟩

def block (count : Nat) : Reader ReadError {bytes : Bytes // bytes.length = count} := fun cursor =>
  if enough : (cursor.rest.take count).length = count then
    .ok ⟨cursor.rest.take count, enough⟩ ⟨cursor.offset + count, cursor.rest.drop count⟩
  else .error (.outOfBounds count cursor.offset cursor.rest.length) cursor

def bytes (count : Nat) : Reader ReadError Bytes := do return (← block count).val

def littleEndian (width : Nat) : Reader ReadError Nat := do return LittleEndian.decode (← bytes width)

/-- The groups of a number from here on, at most `more` of them before the last. A last group of zero is accepted
only as the first, and a tenth group has one bit of a 64-bit number left to give. -/
def groups (first : Nat) : Nat → Bool → Reader ReadError Nat
  | 0, _ => do
    if (← byte) = 1 then return 1 else throw (.malformedUleb128 first)
  | more + 1, leading => do
    let group ← byte
    if group.toNat < 128 then
      if group = 0 ∧ leading = false then throw (.malformedUleb128 first) else return group.toNat
    else return group.toNat - 128 + 128 * (← groups first more false)

def uleb64 : Reader ReadError Nat := do groups (← get).offset 9 true

/-- A number below `2 ^ 32`; a larger one counts as malformed after all its groups are read. -/
def uleb32 : Reader ReadError Nat := do
  let first := (← get).offset
  let number ← uleb64
  if number < Nat.pow 2 32 then return number else throw (.malformedUleb128 first)

def lengthPrefixed : Reader ReadError Bytes := do bytes (← uleb32)

def many (item : Reader ε α) : Nat → Reader ε (List α)
  | 0 => return []
  | count + 1 => do
    let first ← item
    return first :: (← many item count)

def entries (entry : Nat → Reader ε α) : Nat → Nat → Reader ε (List α)
  | 0, _ => return []
  | limit + 1, index => do
    if (← get).rest.isEmpty then return []
    let first ← entry index
    return first :: (← entries entry limit (index + 1))

/-- Every entry up to the end of the bytes; entries take at least one byte each. -/
def toEnd (entry : Nat → Reader ε α) : Reader ε (List α) := do entries entry (← get).rest.length 0

end Reader

end MoveBytecode
