/-! Lists of characters: blanks at their ends, the parts between separators, and numbers in decimal digits. -/

set_option autoImplicit false

namespace MoveBytecode.Text

/-- The Unicode property White_Space. -/
def isBlank (c : Char) : Bool :=
  (9 ≤ c.toNat && c.toNat ≤ 13) || (0x2000 ≤ c.toNat && c.toNat ≤ 0x200A) ||
    [0x20, 0x85, 0xA0, 0x1680, 0x2028, 0x2029, 0x202F, 0x205F, 0x3000].contains c.toNat

def trimStart (text : List Char) : List Char := text.dropWhile isBlank

def trimEnd (text : List Char) : List Char := (text.reverse.dropWhile isBlank).reverse

def trim (text : List Char) : List Char := trimEnd (trimStart text)

def consHead (c : Char) : List (List Char) → List (List Char)
  | [] => [[c]]
  | part :: parts => (c :: part) :: parts

def splitOn (separator : Char) : List Char → List (List Char)
  | [] => [[]]
  | c :: rest => if c = separator then [] :: splitOn separator rest else consHead c (splitOn separator rest)

def isDigit (c : Char) : Bool := '0' ≤ c && c ≤ '9'

def decimal (n : Nat) : List Char := Nat.toDigits 10 n

def readDecimal? (text : List Char) : Option Nat :=
  if text ≠ [] ∧ text.all isDigit then some (Nat.ofDigitChars 10 text 0) else none

/-- Reads only what is written for a number, so without leading zeros. -/
def readCanonicalDecimal? (text : List Char) : Option Nat :=
  if text.head? = some '0' ∧ text ≠ ['0'] then none else readDecimal? text

def padRight (width : Nat) (text : List Char) : List Char := text ++ List.replicate (width - text.length) ' '

def padLeft (width : Nat) (text : List Char) : List Char := List.replicate (width - text.length) ' ' ++ text

end MoveBytecode.Text
