import MoveBytecode.Bytes

/-! Account addresses: 32 bytes, written in the order of their digits. -/

set_option autoImplicit false

namespace MoveBytecode

structure Address where
  bytes : Bytes
  length_eq : bytes.length = 32
  deriving DecidableEq, Repr

/-- The text that was refused, which is not always the text that was given: see Address.ofShortHex. -/
structure AddressError where
  text : String
  deriving DecidableEq, Repr

def AddressError.message (error : AddressError) : String := s!"invalid address `{error.text}`"

namespace Address

def zero : Address := ⟨List.replicate 32 0, by simp⟩

def ofBlock (block : {bytes : Bytes // bytes.length = 32}) : Address := ⟨block.val, block.property⟩

def ofBytes? (bytes : Bytes) : Option Address :=
  if length_eq : bytes.length = 32 then some ⟨bytes, length_eq⟩ else none

def hex (address : Address) : List Char := Hex.encode address.bytes

def display (address : Address) : List Char := '0' :: 'x' :: address.hex

def withoutMark : List Char → List Char
  | '0' :: 'x' :: digits => digits
  | '0' :: 'X' :: digits => digits
  | digits => digits

/-- Exactly 64 digits, with or without a mark. -/
def ofHex? (text : List Char) : Option Address := (Hex.decode? (withoutMark text)).bind ofBytes?

def ofHex (text : String) : Except AddressError Address :=
  match ofHex? text.toList with
  | some address => .ok address
  | none => .error ⟨text⟩

/-- One to 64 digits, with or without a mark, stand for an address that starts with zeros. The filled text is read
in its turn, so that it may show a second mark, and is what an error names. -/
def ofShortHex (text : String) : Except AddressError Address :=
  let digits := String.ofList (withoutMark text.toList)
  if digits.isEmpty ∨ digits.utf8ByteSize > 64 then .error ⟨text⟩
  else ofHex (String.ofList (List.leftpad 64 '0' digits.toList))

end Address

end MoveBytecode
