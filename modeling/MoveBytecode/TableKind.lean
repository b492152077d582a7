import MoveBytecode.Bytes

/-! The kinds of table that a module may list. The byte 0x09 and those above 0x14 name none. -/

set_option autoImplicit false

namespace MoveBytecode

inductive TableKind where
  | moduleHandles
  | structHandles
  | functionHandles
  | functionInstantiations
  | signatures
  | constantPool
  | identifiers
  | addressIdentifiers
  | structDefinitions
  | structDefInstantiations
  | functionDefinitions
  | fieldHandles
  | fieldInstantiations
  | friendDeclarations
  | metadata
  | enumDefinitions
  | enumDefInstantiations
  | variantHandles
  | variantInstantiationHandles
  deriving DecidableEq, Repr

namespace TableKind

def all : List TableKind :=
  [moduleHandles, structHandles, functionHandles, functionInstantiations, signatures, constantPool, identifiers,
    addressIdentifiers, structDefinitions, structDefInstantiations, functionDefinitions, fieldHandles,
    fieldInstantiations, friendDeclarations, metadata, enumDefinitions, enumDefInstantiations, variantHandles,
    variantInstantiationHandles]

theorem mem_all (kind : TableKind) : kind ∈ all := by cases kind <;> decide

def byte : TableKind → UInt8
  | moduleHandles => 0x01
  | structHandles => 0x02
  | functionHandles => 0x03
  | functionInstantiations => 0x04
  | signatures => 0x05
  | constantPool => 0x06
  | identifiers => 0x07
  | addressIdentifiers => 0x08
  | structDefinitions => 0x0A
  | structDefInstantiations => 0x0B
  | functionDefinitions => 0x0C
  | fieldHandles => 0x0D
  | fieldInstantiations => 0x0E
  | friendDeclarations => 0x0F
  | metadata => 0x10
  | enumDefinitions => 0x11
  | enumDefInstantiations => 0x12
  | variantHandles => 0x13
  | variantInstantiationHandles => 0x14

def ofByte? (byte : UInt8) : Option TableKind := all.find? fun kind => kind.byte = byte

@[simp] theorem ofByte?_byte (kind : TableKind) : ofByte? kind.byte = some kind := by cases kind <;> decide

/-- Whether the contents of the table are read; the bytes of any other table are kept as they are. -/
def isParsed : TableKind → Bool
  | identifiers | addressIdentifiers | constantPool => true
  | _ => false

def name : TableKind → String
  | moduleHandles => "MODULE_HANDLES"
  | structHandles => "STRUCT_HANDLES"
  | functionHandles => "FUNCTION_HANDLES"
  | functionInstantiations => "FUNCTION_INST"
  | signatures => "SIGNATURES"
  | constantPool => "CONSTANT_POOL"
  | identifiers => "IDENTIFIERS"
  | addressIdentifiers => "ADDRESS_IDENTIFIERS"
  | structDefinitions => "STRUCT_DEFS"
  | structDefInstantiations => "STRUCT_DEF_INST"
  | functionDefinitions => "FUNCTION_DEFS"
  | fieldHandles => "FIELD_HANDLES"
  | fieldInstantiations => "FIELD_INST"
  | friendDeclarations => "FRIEND_DECLS"
  | metadata => "METADATA"
  | enumDefinitions => "ENUM_DEFS"
  | enumDefInstantiations => "ENUM_DEF_INST"
  | variantHandles => "VARIANT_HANDLES"
  | variantInstantiationHandles => "VARIANT_INST_HANDLES"

def viewName : TableKind → String
  | moduleHandles => "ModuleHandles"
  | structHandles => "StructHandles"
  | functionHandles => "FunctionHandles"
  | functionInstantiations => "FunctionInstantiations"
  | signatures => "Signatures"
  | constantPool => "ConstantPool"
  | identifiers => "Identifiers"
  | addressIdentifiers => "AddressIdentifiers"
  | structDefinitions => "StructDefinitions"
  | structDefInstantiations => "StructDefInstantiations"
  | functionDefinitions => "FunctionDefinitions"
  | fieldHandles => "FieldHandles"
  | fieldInstantiations => "FieldInstantiations"
  | friendDeclarations => "FriendDeclarations"
  | metadata => "Metadata"
  | enumDefinitions => "EnumDefinitions"
  | enumDefInstantiations => "EnumDefInstantiations"
  | variantHandles => "VariantHandles"
  | variantInstantiationHandles => "VariantInstantiationHandles"

end TableKind

end MoveBytecode
