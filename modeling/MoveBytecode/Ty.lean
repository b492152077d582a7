import MoveBytecode.Cursor

/-! The types of constants, each written as a chain of vector marks before the byte of a leaf type. -/

set_option autoImplicit false

namespace MoveBytecode

inductive Width where
  | w8
  | w16
  | w32
  | w64
  | w128
  | w256
  deriving DecidableEq, Repr

def Width.bytes : Width → Nat
  | .w8 => 1
  | .w16 => 2
  | .w32 => 4
  | .w64 => 8
  | .w128 => 16
  | .w256 => 32

def Width.bits (width : Width) : Nat := 8 * width.bytes

inductive Ty where
  | bool
  | uint (width : Width)
  | address
  | vector (element : Ty)
  deriving DecidableEq, Repr

inductive TyError where
  | truncated
  | tooDeep
  | unsupported (byte : UInt8)
  deriving DecidableEq, Repr

namespace Ty

/-- How many vector marks a written type may start with. -/
def maxNesting : Nat := 32

def nesting : Ty → Nat
  | .vector element => element.nesting + 1
  | _ => 0

def vectorMark : UInt8 := 0x0A

def leaf? (byte : UInt8) : Option Ty :=
  match byte with
  | 0x01 => some .bool
  | 0x02 => some (.uint .w8)
  | 0x03 => some (.uint .w64)
  | 0x04 => some (.uint .w128)
  | 0x05 => some .address
  | 0x0D => some (.uint .w16)
  | 0x0E => some (.uint .w32)
  | 0x0F => some (.uint .w256)
  | _ => none

def encode : Ty → Bytes
  | .bool => [0x01]
  | .uint .w8 => [0x02]
  | .uint .w64 => [0x03]
  | .uint .w128 => [0x04]
  | .address => [0x05]
  | .vector element => vectorMark :: element.encode
  | .uint .w16 => [0x0D]
  | .uint .w32 => [0x0E]
  | .uint .w256 => [0x0F]

def name : Ty → String
  | .bool => "bool"
  | .uint width => s!"u{width.bits}"
  | .address => "address"
  | .vector element => s!"vector<{element.name}>"

def bytes : Ty := .vector (.uint .w8)

def readWithin : Nat → Reader TyError Ty
  | 0 => do
    let byte ← Reader.byte.mapError fun _ => .truncated
    if byte = vectorMark then throw .tooDeep
    Reader.ofOption (.unsupported byte) (leaf? byte)
  | levels + 1 => do
    let byte ← Reader.byte.mapError fun _ => .truncated
    if byte = vectorMark then return .vector (← readWithin levels)
    Reader.ofOption (.unsupported byte) (leaf? byte)

def read : Reader TyError Ty := readWithin maxNesting

end Ty

end MoveBytecode
