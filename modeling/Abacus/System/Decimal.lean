import Abacus.Binary.Elementary
import Abacus.Binary.Power
import Abacus.Decimal.Functions
import Abacus.Decimal.Text
import Abacus.System.Bignumber

/-! Decimal numbers with a number of significant digits, to which every result is rounded. The
circular and hyperbolic functions are worked out in binary with ten more digits. -/

namespace Abacus.Decimal

open Binary (Precision)

def guardDigits : Nat := 10

def working (precision : Nat) : Precision :=
  .nearest (Binary.bitsFor (precision + guardDigits))

def toBinary (p : Precision) : Decimal → Binary
  | .nan => .nan
  | .infinite s => .infinite s
  | .finite s c e => Binary.ofScaled p (signed s c) e

/-- A result rounded to `precision` digits, by way of its text. -/
def ofBinary (precision : Nat) (x : Binary) : Except Failure Decimal :=
  match x with
  | .nan => .ok .nan
  | .infinite s => .ok (.infinite s)
  | .finite .. =>
    ((ofText (x.text (precision + guardDigits))).mapError Bignumber.failureOf).map
      (plus precision)

def lifted (precision : Nat) (f : Precision → Binary → Binary) (x : Decimal) :
    Except Failure Decimal :=
  let p := working precision
  ofBinary precision (f p (x.toBinary p))

def powerOf (precision : Nat) (x y : Decimal) : Decimal :=
  if y.isZero && !x.isNaN then one else power precision x y

def cubeRoot (precision : Nat) (x : Decimal) : Except Failure Decimal :=
  if x.isNegative && !x.isNaN then
    (lifted precision Binary.cbrt (x.minus precision)).map (minus precision)
  else lifted precision Binary.cbrt x

/-- A number below 1 with `precision` random digits. -/
def random (precision : Nat) : EStateM Failure Generator Decimal := do
  let (n, g) := (← get).below (Number.tenPow precision)
  set g
  return (ofNat n).scaled precision (-precision)

def hypot (precision : Nat) (xs : List Decimal) : Decimal :=
  sqrt precision (xs.foldl (fun total x => add precision total (multiply precision x x)) zero)

def arithmetic (precision : Nat) : Arithmetic Decimal where
  zero := zero
  one := one
  parse := Bignumber.parse
  format := fun x => .ok x.text
  fromInt := ofInt
  isZero := isZero
  isInteger := isIntegral
  toCount := Bignumber.toCount
  add := add precision
  subtract := subtract precision
  multiply := multiply precision
  divide := fun x y => .ok (divide precision x y)
  remainder := fun x y => .ok (remainder precision x y)
  power := fun x y => .ok (powerOf precision x y)
  compare := fun x y => .ok (x.order? y)
  equals := sameValue
  absolute := abs precision
  toInteger := fun d x => x.toIntegral (Bignumber.directionOf d)
  sign := Arithmetic.orderedSign (fun x y => .ok (x.order? y)) zero ofInt
  sqrt := fun x => .ok (sqrt precision x)
  cbrt := cubeRoot precision
  random := random precision

def constant (precision : Nat) (value : Precision → Binary) : Decimal :=
  match ofBinary precision (value (working precision)) with
  | .ok x => x
  | .error _ => .nan

def constants (precision : Nat) : List (String × Decimal) :=
  [("π", constant precision Binary.pi), ("e", constant precision Binary.euler),
    ("∞", .infinite false)]

def binaryFunctions : List (String × (Precision → Binary → Binary)) :=
  [("sin", Binary.sin), ("cos", Binary.cos), ("tan", Binary.tan), ("asin", Binary.asin),
    ("acos", Binary.acos), ("atan", Binary.atan), ("sinh", Binary.sinh), ("cosh", Binary.cosh),
    ("tanh", Binary.tanh), ("asinh", Binary.asinh), ("acosh", Binary.acosh),
    ("atanh", Binary.atanh)]

def system (precision : Nat) : NumberSystem Decimal :=
  (arithmetic precision).system (constants precision)
    ([Arithmetic.unary "exp" (fun x => .ok (exp precision x)),
      Arithmetic.unary "ln" (fun x => .ok (ln precision x)),
      Arithmetic.unary "log" (fun x => .ok (log10 precision x))] ++
      binaryFunctions.map (fun (name, f) => Arithmetic.unary name (lifted precision f)) ++
      [Arithmetic.variadic "hypot" (fun xs => .ok (hypot precision xs))])

end Abacus.Decimal
