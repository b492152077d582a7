import MoveBytecode.Bytes

/-! The word after the magic bytes: the format version in its low 24 bits, a flavor in the high byte. -/

set_option autoImplicit false

namespace MoveBytecode

structure Header where
  version : Nat
  flavor : UInt8
  supported : 1 ≤ version ∧ version ≤ 7
  deriving DecidableEq, Repr

namespace Header

def versionOf (word : Nat) : Nat := word % Nat.pow 2 24

def ofWord? (word : Nat) : Option Header :=
  if supported : 1 ≤ versionOf word ∧ versionOf word ≤ 7 then
    some ⟨versionOf word, UInt8.ofNat (word / Nat.pow 2 24), supported⟩
  else none

def word (header : Header) : Nat := header.version + Nat.pow 2 24 * header.flavor.toNat

def hasSelfHandle (header : Header) : Bool := 5 ≤ header.version

end Header

end MoveBytecode
