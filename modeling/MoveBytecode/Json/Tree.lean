import MoveBytecode.Json
import MoveBytecode.Json.Token

/-! The structure of a JSON text before its literals are taken for values. A reader that skips a part of the tree
does not care whether the numbers in it are too large, or its strings broken. -/

set_option autoImplicit false

namespace MoveBytecode.Json

inductive Tree where
  | null
  | bool (value : Bool)
  | number (literal : NumberLiteral)
  | string (text : Option String)
  | array (items : List Tree)
  | object (members : List (Option String × Tree))
  deriving Repr

namespace Tree

mutual

def read : Nat → List Token → Option (Tree × List Token)
  | 0, _ => none
  | steps + 1, tokens =>
    match tokens with
    | .null :: rest => some (.null, rest)
    | .bool value :: rest => some (.bool value, rest)
    | .number literal :: rest => some (.number literal, rest)
    | .string text :: rest => some (.string text, rest)
    | .openArray :: .closeArray :: rest => some (.array [], rest)
    | .openArray :: rest => (readItems steps rest).map fun (items, rest) => (.array items, rest)
    | .openObject :: .closeObject :: rest => some (.object [], rest)
    | .openObject :: rest => (readMembers steps rest).map fun (members, rest) => (.object members, rest)
    | _ => none

def readItems : Nat → List Token → Option (List Tree × List Token)
  | 0, _ => none
  | steps + 1, tokens =>
    match read steps tokens with
    | some (item, .closeArray :: rest) => some ([item], rest)
    | some (item, .comma :: rest) => (readItems steps rest).map fun (items, rest) => (item :: items, rest)
    | _ => none

def readMembers : Nat → List Token → Option (List (Option String × Tree) × List Token)
  | 0, _ => none
  | steps + 1, tokens =>
    match tokens with
    | .string key :: .colon :: rest =>
      match read steps rest with
      | some (value, .closeObject :: rest) => some ([(key, value)], rest)
      | some (value, .comma :: rest) =>
        (readMembers steps rest).map fun (members, rest) => ((key, value) :: members, rest)
      | _ => none
    | _ => none

end

/-- The tree of a whole text. Two steps for each token are enough. -/
def ofText? (text : String) : Option Tree := do
  let tokens ← Token.ofText? text
  match read (2 * tokens.length) tokens with
  | some (tree, []) => some tree
  | _ => none

mutual

/-- How many arrays and objects enclose the innermost part, itself among them. -/
def depth : Tree → Nat
  | .array items => itemsDepth items + 1
  | .object members => membersDepth members + 1
  | _ => 0

def itemsDepth : List Tree → Nat
  | [] => 0
  | first :: rest => max first.depth (itemsDepth rest)

def membersDepth : List (Option String × Tree) → Nat
  | [] => 0
  | (_, first) :: rest => max first.depth (membersDepth rest)

end

def maxDepth : Nat := 127

end Tree

def insertMember (key : String) (value : Json) : List (String × Json) → List (String × Json)
  | [] => [(key, value)]
  | (first, old) :: rest =>
    if key < first then (key, value) :: (first, old) :: rest
    else if key = first then (key, value) :: rest
    else (first, old) :: insertMember key value rest

/-- Members by key, each with the last value given for it. -/
def sortMembers (members : List (String × Json)) : List (String × Json) :=
  members.foldl (fun sorted (key, value) => insertMember key value sorted) []

namespace Tree

mutual

/-- The value of a tree all of whose literals have one; the members of objects come in the order of their keys. -/
def json? : Tree → Option Json
  | .null => some .null
  | .bool value => some (.bool value)
  | .number literal => literal.number?.map .number
  | .string text => text.map .string
  | .array items => (items? items).map .array
  | .object members => (members? members).map fun members => .object (sortMembers members)

def items? : List Tree → Option (List Json)
  | [] => some []
  | first :: rest => do return (← first.json?) :: (← items? rest)

def members? : List (Option String × Tree) → Option (List (String × Json))
  | [] => some []
  | (key, first) :: rest => do return (← key, ← first.json?) :: (← members? rest)

end

def string? : Tree → Option String
  | .string text => text
  | _ => none

def stringOrNull? : Tree → Option (Option String)
  | .null => some none
  | tree => tree.string?.map some

def strings? : Tree → Option (List String)
  | .array items => items.mapM string?
  | _ => none

def dictionary? {α : Type} (value? : Tree → Option α) : Tree → Option (Dictionary α)
  | .object members => do
    let pairs ← members.mapM fun (key, value) => do return (← key, ← value? value)
    return Dictionary.ofPairs pairs
  | _ => none

def byte? : Tree → Option UInt8
  | .number literal =>
    match literal.number? with
    | some (.integer value) => if 0 ≤ value ∧ value < 256 then some (UInt8.ofNat value.toNat) else none
    | _ => none
  | _ => none

def bytes? : Tree → Option (List UInt8)
  | .array items => items.mapM byte?
  | _ => none

def fieldOr {α : Type} (default : α) (value? : Tree → Option α) : Option Tree → Option α
  | none => some default
  | some tree => value? tree

/-- The members of an object by known names, each given at most once, and the others in their order. -/
def partition? (names : List String) : List (Option String × Tree) →
    Option (Dictionary Tree × List (String × Tree))
  | [] => some ([], [])
  | (key, value) :: rest => do
    let key ← key
    let (known, others) ← partition? names rest
    if names.contains key then
      if (known.value? key).isSome then none else some ((key, value) :: known, others)
    else some (known, (key, value) :: others)

/-- The fields of a record in their order: from an object, or from an array that gives the first of them. Members of
other names are refused or skipped. -/
def fields? (names : List String) (skipsOthers : Bool) : Tree → Option (List (Option Tree))
  | .array items =>
    if items.length ≤ names.length then
      some (items.map some ++ List.replicate (names.length - items.length) none)
    else none
  | .object members => do
    let (known, others) ← partition? names members
    if others.isEmpty || skipsOthers then some (names.map known.value?) else none
  | _ => none

end Tree

end MoveBytecode.Json
