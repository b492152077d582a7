import MoveBytecode.Bytes

/-! The 32-bit cyclic redundancy check with the reflected polynomial EDB88320, its register inverted at both ends. -/

set_option autoImplicit false

namespace MoveBytecode.Crc32

def shiftBit (register : UInt32) : UInt32 :=
  if register &&& 1 = 1 then (register >>> 1) ^^^ 0xEDB88320 else register >>> 1

def shiftByte (register : UInt32) (byte : UInt8) : UInt32 :=
  Nat.repeat shiftBit 8 (register ^^^ byte.toUInt32)

def checksum (bytes : Bytes) : UInt32 := bytes.foldl shiftByte 0xFFFFFFFF ^^^ 0xFFFFFFFF

def hex (sum : UInt32) : List Char := Hex.encode (LittleEndian.encode 4 sum.toNat).reverse

end MoveBytecode.Crc32
