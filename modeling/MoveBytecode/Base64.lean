import MoveBytecode.Bytes

/-! Byte strings in the standard alphabet of 64 digits, three bytes in four digits, the last four filled up with
equals signs. Bits that the last digit has in excess are zero. -/

set_option autoImplicit false

namespace MoveBytecode.Base64

def digit (n : Nat) : Char :=
  if n < 26 then Char.ofNat ('A'.toNat + n)
  else if n < 52 then Char.ofNat ('a'.toNat + (n - 26))
  else if n < 62 then Char.ofNat ('0'.toNat + (n - 52))
  else if n = 62 then '+'
  else '/'

def digitValue? (c : Char) : Option Nat :=
  if 'A' ≤ c ∧ c ≤ 'Z' then some (c.toNat - 'A'.toNat)
  else if 'a' ≤ c ∧ c ≤ 'z' then some (c.toNat - 'a'.toNat + 26)
  else if '0' ≤ c ∧ c ≤ '9' then some (c.toNat - '0'.toNat + 52)
  else if c = '+' then some 62
  else if c = '/' then some 63
  else none

def encode : Bytes → List Char
  | [] => []
  | [a] => [digit (a.toNat / 4), digit (a.toNat % 4 * 16), '=', '=']
  | [a, b] => [digit (a.toNat / 4), digit (a.toNat % 4 * 16 + b.toNat / 16), digit (b.toNat % 16 * 4), '=']
  | a :: b :: c :: rest =>
    digit (a.toNat / 4) :: digit (a.toNat % 4 * 16 + b.toNat / 16) :: digit (b.toNat % 16 * 4 + c.toNat / 64) ::
      digit (c.toNat % 64) :: encode rest

def lastByte? (first second : Char) : Option Bytes := do
  let a ← digitValue? first
  let b ← digitValue? second
  if b % 16 = 0 then some [UInt8.ofNat (a * 4 + b / 16)] else none

def lastBytes? (first second third : Char) : Option Bytes := do
  let a ← digitValue? first
  let b ← digitValue? second
  let c ← digitValue? third
  if c % 4 = 0 then some [UInt8.ofNat (a * 4 + b / 16), UInt8.ofNat (b % 16 * 16 + c / 4)] else none

def decode? : List Char → Option Bytes
  | [] => some []
  | first :: second :: third :: fourth :: rest =>
    if fourth = '=' ∧ rest = [] then
      if third = '=' then lastByte? first second else lastBytes? first second third
    else do
      let a ← digitValue? first
      let b ← digitValue? second
      let c ← digitValue? third
      let d ← digitValue? fourth
      let bytes ← decode? rest
      return UInt8.ofNat (a * 4 + b / 16) :: UInt8.ofNat (b % 16 * 16 + c / 4) :: UInt8.ofNat (c % 4 * 64 + d) :: bytes
  | _ => none

end MoveBytecode.Base64
