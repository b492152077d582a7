import MoveBytecode.Json.Binary64
import MoveBytecode.Text

/-! JSON numbers: a whole number of at most 64 bits is kept, any other is a double. The double of a literal comes of
one product or quotient of a 64-bit significand and a power of ten, so it may not be the nearest one. -/

set_option autoImplicit false

namespace MoveBytecode.Json

/-- A number as it is written; an empty fraction or exponent is one that is not written. -/
structure NumberLiteral where
  negative : Bool
  whole : List Char
  fraction : List Char
  exponentNegative : Bool
  exponent : List Char
  deriving DecidableEq, Repr

inductive Number where
  | integer (value : Int)
  | double (negative : Bool) (magnitude : Binary64)
  deriving DecidableEq, Repr

namespace NumberLiteral

def digitValue (c : Char) : Nat := c.toNat - '0'.toNat

/-- Digits taken into a significand while it stays below `2 ^ 64`, and how many of them were. -/
def takeDigits (significand : Nat) : List Char → Nat × Nat
  | [] => (significand, 0)
  | digit :: rest =>
    let next := 10 * significand + digitValue digit
    if next < Nat.pow 2 64 then
      let (final, taken) := takeDigits next rest
      (final, taken + 1)
    else (significand, 0)

def scaleOnce? (significand : Binary64) (exponent : Int) : Option Binary64 :=
  match Binary64.ofQuotient? (Nat.pow 10 exponent.natAbs) 1 with
  | none => none
  | some power => if exponent ≥ 0 then significand.mul? power else significand.div? power

/-- Powers below the smallest one are taken in steps of 308 places, until nothing is left: no significand is left
after three of them. -/
def scale? : Nat → Binary64 → Int → Option Binary64
  | 0, _, _ => none
  | steps + 1, significand, exponent =>
    if exponent.natAbs ≤ 308 then scaleOnce? significand exponent
    else if significand.significand = 0 then some significand
    else if exponent ≥ 0 then none
    else
      match scaleOnce? significand (-308) with
      | some smaller => scale? steps smaller (exponent + 308)
      | none => none

def magnitude? (literal : NumberLiteral) : Option Binary64 :=
  let (whole, wholeTaken) := takeDigits 0 literal.whole
  let (significand, fractionTaken) := takeDigits whole literal.fraction
  let written : Int := Nat.ofDigitChars 10 literal.exponent 0
  let exponent := if literal.exponentNegative then -written else written
  if significand = 0 then some .zero
  else
    match Binary64.ofQuotient? significand 1 with
    | none => none
    | some rounded =>
      scale? 4 rounded (exponent + (literal.whole.length - wholeTaken : Nat) - fractionTaken)

def isWhole (literal : NumberLiteral) : Bool := literal.fraction.isEmpty && literal.exponent.isEmpty

def number? (literal : NumberLiteral) : Option Number :=
  let whole := Nat.ofDigitChars 10 literal.whole 0
  if literal.isWhole && !literal.negative && whole < Nat.pow 2 64 then some (.integer whole)
  else if literal.isWhole && literal.negative && 0 < whole && whole ≤ Nat.pow 2 63 then some (.integer (-whole))
  else literal.magnitude?.map (.double literal.negative)

end NumberLiteral

namespace Number

def signed (negative : Bool) (text : List Char) : List Char := if negative then '-' :: text else text

/-- Without a point or exponent behind them, the digits of a whole double are followed by a point and a zero. The
leading digit stands for ten to the power `leading`; positional notation serves from -5 to 15, and any other power is
written with its sign. -/
def layOut (digits : List Char) (leading : Int) : List Char :=
  if 0 ≤ leading ∧ leading < 16 then
    let whole := leading.toNat + 1
    if digits.length ≤ whole then digits ++ List.replicate (whole - digits.length) '0' ++ ['.', '0']
    else digits.take whole ++ '.' :: digits.drop whole
  else if -5 ≤ leading ∧ leading < 0 then '0' :: '.' :: List.replicate ((-leading).toNat - 1) '0' ++ digits
  else
    let power := 'e' :: (if leading < 0 then '-' else '+') :: Text.decimal leading.natAbs
    match digits with
    | first :: second :: rest => first :: '.' :: second :: rest ++ power
    | digits => digits ++ power

def withoutTrailingZeros (digits : List Char) : List Char := (digits.reverse.dropWhile (· = '0')).reverse

def text : Number → List Char
  | integer value => signed (value < 0) (Text.decimal value.natAbs)
  | double negative magnitude => signed negative <|
    if magnitude.significand = 0 then ['0', '.', '0']
    else
      let decimal := magnitude.shortest
      let digits := Text.decimal decimal.digits
      layOut (withoutTrailingZeros digits) (decimal.exponent + digits.length - 1)

end Number

end MoveBytecode.Json
