import Abacus.Binary.Text
import Abacus.Decimal.Functions
import Abacus.Decimal.Text
import Abacus.System.Basic

/-! Decimal numbers of any length. Sums, differences, products and integer powers are exact; what
cannot be exact is rounded to a number of places after the point, a half away from zero. Division
by zero gives an infinity. -/

namespace Abacus.Bignumber

open Decimal

/-- A precision that no result meets. -/
def exact : Nat := Decimal.limit

def failureOf : Decimal.TextError → Failure
  | .malformed => .malformedDecimal
  | .outOfRange => .decimalOutOfRange

def parse (s : String) : Except Failure Decimal :=
  (Decimal.ofText s).mapError failureOf

/-- The precision in which a result is worked out before it is rounded, if there is such a
precision. -/
def working (digits : Int) : Except Failure Nat :=
  if digits ≤ Decimal.limit then .ok (max digits 1).toNat else .error .tooManyDigits

/-- The exponent of the last digit of a number that was rounded; none is smaller than this bound. -/
def quantum (places : Int) : Int :=
  max (-places) (-1000026)

/-- Rounds to `places` digits after the point. -/
def rounded (places : Int) (x : Decimal) : Decimal :=
  if x.isFinite && x.exponent < -places then x.quantized (quantum places) else x

/-- The digits of a quotient that are worked out: those before the point, `places` digits after it
and more. -/
def quotientDigits (places : Int) (x y : Decimal) : Int :=
  max (x.adjusted - y.adjusted + 2) 1 + places + 2

def divide (places : Int) (x y : Decimal) : Except Failure Decimal :=
  if y.isZero || !x.isFinite || !y.isFinite then .ok (Decimal.divide exact x y)
  else do
    let digits ← working (quotientDigits places x y)
    return rounded places (Decimal.divide digits x y)

/-- A power whose exponent is no integer, worked out once more if it has too many digits before
the point. -/
def powerReal (places : Int) (x y : Decimal) : Except Failure Decimal := do
  let digits := places + 30
  let result := Decimal.power (← working digits) x y
  if result.isFinite ∧ digits < result.adjusted + places + 4 then
    return rounded places (Decimal.power (← working (result.adjusted + places + 4)) x y)
  else return rounded places result

def power (places : Int) (x y : Decimal) : Except Failure Decimal :=
  if x.isNaN || y.isNaN then .ok .nan
  else if y.isIntegral then
    if y.isZero then .ok one
    else if y.isNegative then divide places one (Decimal.power exact x y.negate)
    else .ok (Decimal.power exact x y)
  else powerReal places x y

def toCount (x : Decimal) : Except Failure Int :=
  if x.isFinite then .ok (x.toIntegral .floor).toInt else .error .infiniteCount

def directionOf : Direction → Number.Rounding
  | .nearest => .halfUp
  | .up => .ceiling
  | .down => .floor

/-- The digits of a square root that are worked out. -/
def rootDigits (places : Int) (x : Decimal) : Int :=
  max (x.adjusted / 2 + 2) 1 + places + 2

def sqrt (places : Int) (x : Decimal) : Except Failure Decimal :=
  if x.isFinite then do
    let digits ← working (rootDigits places x)
    return rounded places (Decimal.sqrt digits x)
  else .ok (Decimal.sqrt exact x)

def cbrt (places : Int) (x : Decimal) : Except Failure Decimal :=
  if !x.isFinite || x.isZero then .ok x
  else do
    let digits ← working (max (x.adjusted / 3 + 2) 1 + places + 30)
    let root := Decimal.power digits x.magnitude (Decimal.divide digits one (ofNat 3))
    return rounded places (if x.isNegative then Decimal.minus digits root else root)

/-- A number below 1 with `places` random digits. -/
def random (places : Int) : EStateM Failure Generator Decimal := do
  if places < 0 then throw (if places ≤ -324 then .emptyRange else .noRange)
  let (n, g) := (← get).below (Number.tenPow places.toNat)
  set g
  return (ofNat n).scaled exact (-places)

def arithmetic (places : Int) : Arithmetic Decimal where
  zero := Decimal.zero
  one := Decimal.one
  parse := parse
  format := fun x => .ok x.text
  fromInt := Decimal.ofInt
  isZero := Decimal.isZero
  isInteger := Decimal.isIntegral
  toCount := toCount
  add := Decimal.add exact
  subtract := Decimal.subtract exact
  multiply := Decimal.multiply exact
  divide := divide places
  remainder := fun x y => .ok (Decimal.remainder exact x y)
  power := power places
  compare := fun x y => .ok (x.order? y)
  equals := Decimal.sameValue
  absolute := Decimal.abs exact
  toInteger := fun d x => x.toIntegral (directionOf d)
  sign := Arithmetic.orderedSign (fun x y => .ok (x.order? y)) Decimal.zero Decimal.ofInt
  sqrt := sqrt places
  cbrt := cbrt places
  random := random places

/-- A constant with `places` digits after the point. -/
def constant? (places : Int) (value : Binary.Precision → Binary) : Except Failure Decimal :=
  match Binary.constantText? value (places + 1) with
  | none => .error .noSuchDigit
  | some text => (parse text).map (rounded places)

def constant (places : Int) (value : Binary.Precision → Binary) : Decimal :=
  (constant? places value).toOption.getD .nan

def constants (places : Int) : List (String × Decimal) :=
  [("π", constant places Binary.pi), ("e", constant places Binary.euler),
    ("∞", .infinite false)]

def system (places : Int) : NumberSystem Decimal :=
  let a := arithmetic places
  a.system (constants places)
    [Arithmetic.unary "isFinite" (fun x => .ok (a.boolean x.isFinite)),
      Arithmetic.unary "isNaN" (fun x => .ok (a.boolean x.isNaN))]

end Abacus.Bignumber
