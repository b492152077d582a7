/-! Non-negative finite doubles in exact arithmetic on naturals: rounding of a quotient, products and quotients, and
the shortest decimal that rounds to a double. -/

set_option autoImplicit false

namespace MoveBytecode

/-- The number `significand * 2 ^ scale / 2 ^ 1074`. -/
structure Binary64 where
  significand : Nat
  scale : Nat
  deriving DecidableEq, Repr

namespace Binary64

def zero : Binary64 := ⟨0, 0⟩

/-- The double nearest to a quotient, the one with the even significand of two that are equally near; none beyond
the largest double. -/
def ofQuotient? (numerator denominator : Nat) : Option Binary64 :=
  let scaled := numerator * Nat.pow 2 1074
  let scale := (scaled / denominator).log2 + 1 - 53
  let unit := denominator * Nat.pow 2 scale
  let floor := scaled / unit
  let twice := 2 * (scaled % unit)
  let nearest := if twice > unit ∨ (twice = unit ∧ floor % 2 = 1) then floor + 1 else floor
  let rounded : Binary64 := if nearest = Nat.pow 2 53 then ⟨Nat.pow 2 52, scale + 1⟩ else ⟨nearest, scale⟩
  if rounded.scale ≤ 2045 then some rounded else none

def mul? (first second : Binary64) : Option Binary64 :=
  ofQuotient? (first.significand * second.significand * Nat.pow 2 (first.scale + second.scale)) (Nat.pow 2 2148)

def div? (first second : Binary64) : Option Binary64 :=
  ofQuotient? (first.significand * Nat.pow 2 first.scale) (second.significand * Nat.pow 2 second.scale)

structure Decimal where
  digits : Nat
  exponent : Int
  deriving DecidableEq, Repr

/-- The value in units of `2 ^ -1076`, in which the ends of its rounding interval are whole. -/
def quarters (x : Binary64) : Nat := 4 * x.significand * Nat.pow 2 x.scale

/-- Whether a count of those units rounds to the double; both ends of the interval do if the significand is even. -/
def rounds (x : Binary64) (times units : Nat) : Bool :=
  let below := (if x.significand = Nat.pow 2 52 ∧ x.scale > 0 then 1 else 2) * Nat.pow 2 x.scale
  let low := (x.quarters - below) * times
  let high := (x.quarters + 2 * Nat.pow 2 x.scale) * times
  if x.significand % 2 = 0 then low ≤ units && units ≤ high else low < units && units < high

def leadingPlace (units : Nat) : Nat → Nat → Nat
  | 0, places => places
  | limit + 1, places =>
    if units * Nat.pow 10 places ≥ Nat.pow 2 1076 then places else leadingPlace units limit (places + 1)

def leadingExponent (x : Binary64) : Int :=
  if x.quarters ≥ Nat.pow 2 1076 then ((Nat.toDigits 10 (x.quarters / Nat.pow 2 1076)).length : Int) - 1
  else -((leadingPlace x.quarters 324 1 : Nat) : Int)

/-- The multiple of `10 ^ exponent` nearest to a double that rounds to it, the even one of two that are equally
near. -/
def onGrid? (x : Binary64) (exponent : Int) : Option Decimal :=
  let times := Nat.pow 10 (-exponent).toNat
  let step := Nat.pow 10 exponent.toNat * Nat.pow 2 1076
  let value := x.quarters * times
  let floor := value / step
  let twice := 2 * (value % step)
  let nearer := if twice > step ∨ (twice = step ∧ floor % 2 = 1) then floor + 1 else floor
  let farther := 2 * floor + 1 - nearer
  if x.rounds times (nearer * step) then some ⟨nearer, exponent⟩
  else if x.rounds times (farther * step) then some ⟨farther, exponent⟩
  else none

/-- A decimal of the fewest digits that rounds to the double, and of those the nearest. -/
def shortest (x : Binary64) : Decimal :=
  let leading := x.leadingExponent
  ((List.range 17).findSome? fun more : Nat => x.onGrid? (leading - more)).getD ⟨0, 0⟩

end Binary64

end MoveBytecode
