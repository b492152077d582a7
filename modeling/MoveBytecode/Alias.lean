import MoveBytecode.Module

/-! Names for constants: one by the place in the pool, which every constant has, and labels that stand for such
names. -/

set_option autoImplicit false

namespace MoveBytecode

/-- Entries in the order in which their keys were first given. -/
abbrev Dictionary (α : Type) := List (String × α)

namespace Dictionary

variable {α : Type}

/-- A key that is there keeps its place and gets the new value. -/
def insert (key : String) (value : α) : Dictionary α → Dictionary α
  | [] => [(key, value)]
  | (first, old) :: rest => if first = key then (first, value) :: rest else (first, old) :: insert key value rest

def ofPairs (pairs : List (String × α)) : Dictionary α :=
  pairs.foldl (fun dictionary (key, value) => dictionary.insert key value) []

def value? (dictionary : Dictionary α) (key : String) : Option α := dictionary.lookup key

end Dictionary

namespace PoolName

def stem : List Char := "constant_".toList

def ofIndex (index : Nat) : String := String.ofList (stem ++ Text.decimal index)

def index? (name : String) : Option Nat :=
  if stem.isPrefixOf name.toList then
    (Text.readCanonicalDecimal? (name.toList.drop stem.length)).filter (· < Nat.pow 2 64)
  else none

end PoolName

/-- Labels by the pool name they stand for. -/
abbrev Aliases := Dictionary String

namespace Aliases

def label? (aliases : Aliases) (name : String) : Option String := aliases.value? name

/-- The index a key stands for. The first name with this label counts before the key as a name of its own. -/
def resolve (aliases : Aliases) (key : String) : Option Nat :=
  ((aliases.find? fun (_, label) => label = key).bind fun (name, _) => PoolName.index? name) <|> PoolName.index? key

end Aliases

structure Field where
  index : Nat
  name : String
  ty : Ty
  display : String
  deriving DecidableEq, Repr

def Module.fields (module : Module) : List Field :=
  module.constants.mapIdx fun index constant => ⟨index, PoolName.ofIndex index, constant.ty, constant.display⟩

namespace Aliases

def select (aliases : Aliases) (fields : List Field) : List Field :=
  fields.filter fun field => (aliases.label? field.name).isSome

def labelled (aliases : Aliases) (fields : List Field) : List (Option String × Field) :=
  fields.map fun field => (aliases.label? field.name, field)

end Aliases

end MoveBytecode
