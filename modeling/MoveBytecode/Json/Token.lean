import MoveBytecode.Bytes
import MoveBytecode.Json.Number

/-! The tokens of a JSON text. Blanks are the space, the tab and the two line ends. -/

set_option autoImplicit false

namespace MoveBytecode.Json

/-- A string without its text is one whose escapes name a surrogate that has no partner. -/
inductive Token where
  | openArray
  | closeArray
  | openObject
  | closeObject
  | colon
  | comma
  | null
  | bool (value : Bool)
  | number (literal : NumberLiteral)
  | string (text : Option String)
  deriving DecidableEq, Repr

namespace Token

inductive Part where
  | char (c : Char)
  | surrogate (code : Nat)
  deriving DecidableEq, Repr

/-- Surrogates count in pairs of a high one and a low one right behind it. -/
def text? : List Part → Option (List Char)
  | [] => some []
  | .char c :: rest => (text? rest).map (c :: ·)
  | .surrogate high :: .surrogate low :: rest =>
    if high < 0xDC00 ∧ 0xDC00 ≤ low then
      (text? rest).map (Char.ofNat (0x10000 + (high - 0xD800) * 0x400 + (low - 0xDC00)) :: ·)
    else none
  | .surrogate _ :: _ => none

def hexCode? (first second third fourth : Char) : Option Nat := do
  let a ← Hex.digitValue? first
  let b ← Hex.digitValue? second
  let c ← Hex.digitValue? third
  let d ← Hex.digitValue? fourth
  return 0x1000 * a + 0x100 * b + 0x10 * c + d

def ofCode (code : Nat) : Part :=
  if 0xD800 ≤ code ∧ code < 0xE000 then .surrogate code else .char (Char.ofNat code)

def shortEscape? (c : Char) : Option Char :=
  match c with
  | '"' => some '"'
  | '\\' => some '\\'
  | '/' => some '/'
  | 'b' => some '\x08'
  | 'f' => some '\x0c'
  | 'n' => some '\n'
  | 'r' => some '\r'
  | 't' => some '\t'
  | _ => none

def readParts : List Char → Option (List Part × List Char)
  | [] => none
  | c :: rest =>
    if c = '"' then some ([], rest)
    else if c = '\\' then
      match rest with
      | 'u' :: first :: second :: third :: fourth :: rest => do
        let code ← hexCode? first second third fourth
        let (parts, rest) ← readParts rest
        return (ofCode code :: parts, rest)
      | escaped :: rest => do
        let c ← shortEscape? escaped
        let (parts, rest) ← readParts rest
        return (.char c :: parts, rest)
      | [] => none
    else if c.toNat < 0x20 then none
    else do
      let (parts, rest) ← readParts rest
      return (.char c :: parts, rest)

def readDigits? (text : List Char) : Option (List Char × List Char) :=
  let digits := text.takeWhile Text.isDigit
  if digits.isEmpty then none else some (digits, text.dropWhile Text.isDigit)

def readFraction? : List Char → Option (List Char × List Char)
  | '.' :: rest => readDigits? rest
  | rest => some ([], rest)

def readExponent? : List Char → Option (Bool × List Char × List Char)
  | c :: rest =>
    if c = 'e' ∨ c = 'E' then
      match rest with
      | '-' :: rest => (readDigits? rest).map (true, ·)
      | '+' :: rest => (readDigits? rest).map (false, ·)
      | rest => (readDigits? rest).map (false, ·)
    else some (false, [], c :: rest)
  | [] => some (false, [], [])

/-- The whole part of a number has no leading zero. -/
def readUnsigned? (negative : Bool) (text : List Char) : Option (NumberLiteral × List Char) := do
  let (whole, rest) ← readDigits? text
  if whole.head? = some '0' ∧ whole.length > 1 then none
  let (fraction, rest) ← readFraction? rest
  let (exponentNegative, exponent, rest) ← readExponent? rest
  return (⟨negative, whole, fraction, exponentNegative, exponent⟩, rest)

def readNumber? : List Char → Option (NumberLiteral × List Char)
  | '-' :: rest => readUnsigned? true rest
  | text => readUnsigned? false text

def isBlank (c : Char) : Bool := c = ' ' || c = '\t' || c = '\n' || c = '\r'

def next? : List Char → Option (Token × List Char)
  | '[' :: rest => some (openArray, rest)
  | ']' :: rest => some (closeArray, rest)
  | '{' :: rest => some (openObject, rest)
  | '}' :: rest => some (closeObject, rest)
  | ':' :: rest => some (colon, rest)
  | ',' :: rest => some (comma, rest)
  | 'n' :: 'u' :: 'l' :: 'l' :: rest => some (null, rest)
  | 't' :: 'r' :: 'u' :: 'e' :: rest => some (bool true, rest)
  | 'f' :: 'a' :: 'l' :: 's' :: 'e' :: rest => some (bool false, rest)
  | '"' :: rest => (readParts rest).map fun (parts, rest) => (string ((text? parts).map String.ofList), rest)
  | text => (readNumber? text).map fun (literal, rest) => (number literal, rest)

def tokens? : Nat → List Char → Option (List Token)
  | 0, text => if text.all isBlank then some [] else none
  | limit + 1, text =>
    match text.dropWhile isBlank with
    | [] => some []
    | text => do
      let (token, rest) ← next? text
      return token :: (← tokens? limit rest)

def ofText? (text : String) : Option (List Token) := tokens? text.toList.length text.toList

end Token

end MoveBytecode.Json
