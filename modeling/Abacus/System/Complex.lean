import Abacus.Complex.Functions
import Abacus.Complex.Text
import Abacus.System.Basic

/-! Complex numbers with a number of significant digits. Only real numbers have an order. The host may
limit the decimal digits of the integers that it converts. -/

namespace Abacus.Complex

open Binary (Precision)

def failureOf : TextError → Failure
  | .malformed => .malformedComplex
  | .zeroDenominator => .quotientByZero
  | .underscore text => .misplacedUnderscore text

def real (what : String) (z : Complex) : Except Failure Binary :=
  if z.im.isZero then .ok z.re else .error (.realOnly what)

/-- The integer below or above a real number, or the nearest one. -/
def wholeReal (p : Precision) (d : Direction) (x : Binary) : Binary :=
  if !x.isFinite then x
  else
    let floor (x : Binary) : Binary := .ofIntRound p x.floorInt
    match d with
    | .down => floor x
    | .up => .ofIntRound p (-x.neg.floorInt)
    | .nearest => Binary.withSign x (floor ((x.abs.pos p).add p (.normal 1 (-1))))

def toInteger (p : Precision) (d : Direction) (z : Complex) : Complex :=
  ⟨wholeReal p d z.re, wholeReal p d z.im⟩

def toCount (p : Precision) (z : Complex) : Except Failure Int := do
  let x ← real "A repeat amount" z
  if x.isFinite then return (wholeReal p .down x).floorInt else throw .infiniteCount

/-- What is left of `x` after whole multiples of `y`, with the sign of `x`. -/
def remainder (p : Precision) (z w : Complex) : Except Failure Complex := do
  let x ← real "The remainder" z
  let y ← real "The remainder" w
  if y.isZero then throw .divisionByZero
  let q := x.div p y
  let whole := wholeReal p (if Binary.zero.le q then .down else .up) q
  return ofReal (x.sub p (y.mul p whole))

def compare (z w : Complex) : Except Failure (Option Ordering) := do
  let x ← real "Ordering" z
  let y ← real "Ordering" w
  return x.order? y

def divide (p : Precision) (z w : Complex) : Except Failure Complex :=
  if w.isZero then .error .divisionByZero else .ok (z.div p w)

def power (p : Precision) (z w : Complex) : Except Failure Complex :=
  if z.isZero && w.re.isNegative then .error .divisionByZero else .ok (z.pow p w)

def direction (p : Precision) (z : Complex) : Complex :=
  if z.isZero then zero else z.divReal p (z.abs p)

/-- The cube root; that of a negative number is negative. -/
def cubeRoot (p : Precision) (z : Complex) : Complex :=
  if z.im.isZero && z.re.isNegative then ofReal (((z.re.neg.pos p).cbrt p).neg.pos p)
  else z.cbrt p

def random (p : Precision) : EStateM Failure Generator Complex := do
  let (n, g) := (← get).unit
  set g
  return ofReal (.round p n (-53))

/-- The sum of two numbers, exact unless one of them is far smaller than the other. -/
def sumTwo (p : Precision) (x y : Binary) : Binary :=
  match x, y with
  | .finite m e, .finite n f =>
    let far : Int := 3 * p.bits + 64
    if m = 0 ∨ far < y.mag - x.mag then y
    else if n = 0 ∨ far < x.mag - y.mag then x
    else Binary.addFinite m e n f
  | x, y => x.add (.down 1) y

def sumReals (p : Precision) (xs : List Binary) : Binary :=
  (xs.foldl (sumTwo p) .zero).pos p

/-- The root of the sum of the squares of the distances from zero. -/
def hypot (p : Precision) (zs : List Complex) : Complex :=
  ofReal ((sumReals p (zs.map (fun z => (z.abs p).powInt p 2))).sqrt p)

def log10 (p : Precision) (z : Complex) : Complex :=
  let w : Precision := ⟨p.bits + 20, p.cut⟩
  (z.ln w).divReal p ((Binary.ofInt 10).ln w)

def arithmetic (precision : Int) (limit : Option Nat) : Arithmetic Complex :=
  let p : Precision := .nearest (Binary.bitsFor precision)
  { zero := zero
    one := one
    parse := fun s => (ofText limit p s).mapError failureOf
    format := text limit p precision
    fromInt := fun n => ofReal (.ofIntRound p n)
    isZero := isZero
    isInteger := fun z => z.im.isZero && z.re.isInteger
    toCount := toCount p
    add := add p
    subtract := sub p
    multiply := mul p
    divide := divide p
    remainder := remainder p
    power := power p
    compare := compare
    equals := eq
    absolute := fun z => ofReal (z.abs p)
    toInteger := toInteger p
    sign := fun z => .ok (direction p z)
    sqrt := fun z => .ok (z.sqrt p)
    cbrt := fun z => .ok (cubeRoot p z)
    random := random p }

def constants (p : Precision) : List (String × Complex) :=
  [("π", ofReal (Binary.pi p)), ("e", ofReal (Binary.euler p)),
    ("∞", ofReal (.infinite false)), ("i", imaginaryUnit)]

/-- The functions of one number that always have a value. -/
def elementary (p : Precision) : List (String × (Complex → Complex)) :=
  [("exp", exp p), ("sin", sin p), ("cos", cos p), ("tan", tan p), ("asin", asin p),
    ("acos", acos p), ("atan", atan p), ("sinh", sinh p), ("cosh", cosh p), ("tanh", tanh p),
    ("asinh", asinh p), ("acosh", acosh p), ("atanh", atanh p), ("ln", ln p), ("log", log10 p),
    ("conjugate", conjugate p), ("Re", fun z => ofReal (z.re.pos p)),
    ("Im", fun z => ofReal (z.im.pos p)), ("arg", fun z => ofReal (z.arg p))]

def system (precision : Int) (limit : Option Nat) : NumberSystem Complex :=
  let p : Precision := .nearest (Binary.bitsFor precision)
  let a := arithmetic precision limit
  a.system (constants p)
    ((elementary p).map (fun (name, f) => Arithmetic.unary name (fun z => .ok (f z))) ++
      [Arithmetic.variadic "hypot" (fun zs => .ok (hypot p zs)),
        Arithmetic.unary "isReal" (fun z => .ok (a.boolean z.im.isZero))])

end Abacus.Complex
