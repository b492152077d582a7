import MoveBytecode.Alias
import MoveBytecode.Json.Number

/-! JSON values and the two ways in which they are written: without any blank, and with one member a line. -/

set_option autoImplicit false

namespace MoveBytecode

inductive Json where
  | null
  | bool (value : Bool)
  | number (value : Json.Number)
  | string (value : String)
  | array (items : List Json)
  | object (members : List (String × Json))
  deriving Repr

namespace Json

def ofNat (n : Nat) : Json := .number (.integer n)

def ofTexts (texts : List String) : Json := .array (texts.map .string)

def ofDictionary (dictionary : Dictionary String) : Json :=
  .object (dictionary.map fun (key, value) => (key, .string value))

def ofOption : Option String → Json
  | none => .null
  | some text => .string text

/-- Only what cannot stand in a string is escaped: the quote, the backslash and the controls. -/
def escape (c : Char) : List Char :=
  if c = '"' then ['\\', '"']
  else if c = '\\' then ['\\', '\\']
  else if c.toNat = 0x08 then ['\\', 'b']
  else if c.toNat = 0x0C then ['\\', 'f']
  else if c = '\n' then ['\\', 'n']
  else if c = '\r' then ['\\', 'r']
  else if c = '\t' then ['\\', 't']
  else if c.toNat < 0x20 then ['\\', 'u', '0', '0'] ++ Hex.digits (UInt8.ofNat c.toNat)
  else [c]

def quoted (text : String) : List Char := '"' :: text.toList.flatMap escape ++ ['"']

def boolWord (value : Bool) : List Char := (if value then "true" else "false").toList

mutual

def compact : Json → List Char
  | .null => "null".toList
  | .bool value => boolWord value
  | .number value => value.text
  | .string value => quoted value
  | .array items => '[' :: List.intercalate [','] (compactItems items) ++ [']']
  | .object members => '{' :: List.intercalate [','] (compactMembers members) ++ ['}']

def compactItems : List Json → List (List Char)
  | [] => []
  | first :: rest => first.compact :: compactItems rest

def compactMembers : List (String × Json) → List (List Char)
  | [] => []
  | (key, value) :: rest => (quoted key ++ ':' :: value.compact) :: compactMembers rest

end

def newLine (depth : Nat) : List Char := '\n' :: List.replicate (2 * depth) ' '

/-- Parts on lines of their own between two brackets, which stay together where there is no part. -/
def block (depth : Nat) (opening closing : Char) (parts : List (List Char)) : List Char :=
  if parts.isEmpty then [opening, closing]
  else
    opening :: newLine (depth + 1) ++ List.intercalate (',' :: newLine (depth + 1)) parts ++ newLine depth ++ [closing]

mutual

def prettyAt (depth : Nat) : Json → List Char
  | .null => "null".toList
  | .bool value => boolWord value
  | .number value => value.text
  | .string value => quoted value
  | .array items => block depth '[' ']' (prettyItems (depth + 1) items)
  | .object members => block depth '{' '}' (prettyMembers (depth + 1) members)

def prettyItems (depth : Nat) : List Json → List (List Char)
  | [] => []
  | first :: rest => prettyAt depth first :: prettyItems depth rest

def prettyMembers (depth : Nat) : List (String × Json) → List (List Char)
  | [] => []
  | (key, value) :: rest => (quoted key ++ ':' :: ' ' :: prettyAt depth value) :: prettyMembers depth rest

end

def compactText (json : Json) : String := String.ofList json.compact

def prettyText (json : Json) : String := String.ofList (prettyAt 0 json)

end Json

end MoveBytecode
