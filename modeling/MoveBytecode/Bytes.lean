/-! Byte strings, the hexadecimal text of one, and its reading as a little-endian number. -/

set_option autoImplicit false

namespace MoveBytecode

abbrev Bytes := List UInt8

def Bytes.ofText (text : String) : Bytes := text.toUTF8.data.toList

def Bytes.toText? (bytes : Bytes) : Option String := String.fromUTF8? ⟨bytes.toArray⟩

namespace Hex

def digits (byte : UInt8) : List Char :=
  [Nat.digitChar (byte.toNat / 16), Nat.digitChar (byte.toNat % 16)]

def encode (bytes : Bytes) : List Char := bytes.flatMap digits

def digitValue? (c : Char) : Option Nat :=
  if '0' ≤ c ∧ c ≤ '9' then some (c.toNat - '0'.toNat)
  else if 'a' ≤ c ∧ c ≤ 'f' then some (c.toNat - 'a'.toNat + 10)
  else if 'A' ≤ c ∧ c ≤ 'F' then some (c.toNat - 'A'.toNat + 10)
  else none

def isDigit (c : Char) : Bool := ('0' ≤ c && c ≤ '9') || ('a' ≤ c && c ≤ 'f') || ('A' ≤ c && c ≤ 'F')

def decode? : List Char → Option Bytes
  | [] => some []
  | [_] => none
  | high :: low :: rest => do
    let upper ← digitValue? high
    let lower ← digitValue? low
    let bytes ← decode? rest
    return UInt8.ofNat (16 * upper + lower) :: bytes

end Hex

namespace LittleEndian

/-- The lowest `width` bytes of a number, the least significant first. -/
def encode : Nat → Nat → Bytes
  | 0, _ => []
  | width + 1, n => UInt8.ofNat (n % 256) :: encode width (n / 256)

def decode : Bytes → Nat
  | [] => 0
  | byte :: rest => byte.toNat + 256 * decode rest

end LittleEndian

end MoveBytecode
