import MoveBytecode.Text
import MoveBytecode.Value

/-! The readable text of a value and the value of a text. A byte vector stands as text where its bytes are text
that cannot be taken for a hex literal, and as a hex literal elsewhere, always so inside a list. -/

set_option autoImplicit false

namespace MoveBytecode.Value

def isHexLiteral : List Char → Bool
  | '0' :: 'x' :: digits => digits.length % 2 = 0 && digits.all Hex.isDigit
  | _ => false

def byteElements (items : List Value) : Bytes := items.filterMap fun
  | .uint .w8 value => some (UInt8.ofNat value)
  | _ => none

def ofBytes (bytes : Bytes) : Value := .vector (bytes.map fun byte => .uint .w8 byte.toNat)

def renderBytes (nested : Bool) (bytes : Bytes) : List Char :=
  let literal := '0' :: 'x' :: Hex.encode bytes
  if nested then literal
  else
    match Bytes.toText? bytes with
    | some text => if isHexLiteral text.toList then literal else text.toList
    | none => literal

mutual

/-- A vector is laid out by the type; one shown under a type that is no vector gives its length only. -/
def render (nested : Bool) : Ty → Value → List Char
  | _, .bool value => (if value then "true" else "false").toList
  | _, .uint _ value => Text.decimal value
  | _, .address value => value.display
  | ty, .vector items =>
    match ty with
    | .vector element =>
      if element = .uint .w8 then renderBytes nested (byteElements items)
      else '[' :: List.intercalate [',', ' '] (renderAll element items) ++ [']']
    | _ => '[' :: Text.decimal items.length ++ " items]".toList

def renderAll (element : Ty) : List Value → List (List Char)
  | [] => []
  | first :: rest => render true element first :: renderAll element rest

end

def display (ty : Ty) (value : Value) : String := String.ofList (render false ty value)

inductive Reason where
  | boolWord
  | decimalInRange
  | addressDigits
  | badHex
  | nestedBytes
  | bracketedList
  | unbalancedBrackets
  deriving DecidableEq, Repr

def Reason.message : Reason → String
  | boolWord => "expected `true` or `false`"
  | decimalInRange => "expected decimal digits within the type's range"
  | addressDigits => "expected 64 hex digits, optionally prefixed by 0x"
  | badHex => "bad hex"
  | nestedBytes => "list elements must be 0x-hex or plain text"
  | bracketedList => "expected a bracketed list"
  | unbalancedBrackets => "unbalanced brackets"

structure ParseError where
  text : String
  expected : Ty
  reason : Reason
  deriving DecidableEq, Repr

def ParseError.message (error : ParseError) : String :=
  s!"`{error.text}` is not a valid {error.expected.name}: {error.reason.message}"

def bracketed? : List Char → Option (List Char)
  | '[' :: rest => if rest.getLast? = some ']' then some rest.dropLast else none
  | _ => none

/-- The parts between the commas that no bracket encloses, where `depth` brackets are open already. -/
def splitAtDepth (depth : Nat) : List Char → Option (List (List Char))
  | [] => if depth = 0 then some [[]] else none
  | c :: rest =>
    if c = '[' then (splitAtDepth (depth + 1) rest).map (Text.consHead c)
    else if c = ']' then if depth = 0 then none else (splitAtDepth (depth - 1) rest).map (Text.consHead c)
    else if c = ',' ∧ depth = 0 then (splitAtDepth 0 rest).map ([] :: ·)
    else (splitAtDepth depth rest).map (Text.consHead c)

/-- The items of a list; a blank body has none. -/
def splitItems (body : List Char) : Option (List (List Char)) :=
  if body.all Text.isBlank then some [] else splitAtDepth 0 body

/-- In a list, a byte vector given as text may hold no character of the list's own. -/
def parseBytes (nested : Bool) (text : List Char) : Except Reason Bytes :=
  if isHexLiteral text then
    match Hex.decode? (text.drop 2) with
    | some bytes => .ok bytes
    | none => .error .badHex
  else if nested && text.any [',', '[', ']'].contains then .error .nestedBytes
  else .ok (Bytes.ofText (String.ofList text))

def parseAt (nested : Bool) : Ty → List Char → Except ParseError Value
  | .bool, text =>
    if text = "true".toList then .ok (.bool true)
    else if text = "false".toList then .ok (.bool false)
    else .error ⟨String.ofList text, .bool, .boolWord⟩
  | .uint width, text =>
    match (Text.readDecimal? text).filter (· < Nat.pow 2 width.bits) with
    | some value => .ok (.uint width value)
    | none => .error ⟨String.ofList text, .uint width, .decimalInRange⟩
  | .address, text =>
    match Address.ofHex? text with
    | some value => .ok (.address value)
    | none => .error ⟨String.ofList text, .address, .addressDigits⟩
  | .vector element, text =>
    if element = .uint .w8 then
      match parseBytes nested text with
      | .ok bytes => .ok (ofBytes bytes)
      | .error reason => .error ⟨String.ofList text, .vector element, reason⟩
    else
      match bracketed? (Text.trim text) with
      | none => .error ⟨String.ofList text, .vector element, .bracketedList⟩
      | some body =>
        match splitItems body with
        | none => .error ⟨String.ofList text, .vector element, .unbalancedBrackets⟩
        | some items => do return .vector (← items.mapM fun item => parseAt true element (Text.trim item))

def parse (ty : Ty) (text : String) : Except ParseError Value := parseAt false ty text.toList

end MoveBytecode.Value
