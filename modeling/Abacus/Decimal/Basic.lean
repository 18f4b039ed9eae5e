import Abacus.Number.Digits

/-! Decimal floating-point numbers with a sign on zero. A context is its number of significant
digits; the range of exponents is the same everywhere. -/

namespace Abacus

/-- A finite number is `coefficient * 10 ^ exponent` with a sign. -/
inductive Decimal where
  | finite (negative : Bool) (coefficient : Nat) (exponent : Int)
  | infinite (negative : Bool)
  | nan
  deriving DecidableEq

namespace Decimal

/-- The largest exponent of a leading digit, and the largest precision. -/
def limit : Nat := 999999999999999999

/-- The smallest exponent of a last digit at a precision. -/
def tiniest (precision : Nat) : Int :=
  -(limit : Int) - ((precision : Int) - 1)

def ofNat (n : Nat) : Decimal :=
  .finite false n 0

def ofInt (n : Int) : Decimal :=
  .finite (n < 0) n.natAbs 0

def zero : Decimal := ofNat 0

def one : Decimal := ofNat 1

def isNaN : Decimal → Bool
  | .nan => true
  | _ => false

def isFinite : Decimal → Bool
  | .finite .. => true
  | _ => false

def isZero : Decimal → Bool
  | .finite _ c _ => c == 0
  | _ => false

def isNegative : Decimal → Bool
  | .finite s _ _ => s
  | .infinite s => s
  | .nan => false

/-- The exponent of the leading digit of `c * 10 ^ e`. -/
def leading (c : Nat) (e : Int) : Int :=
  e + Number.digitCount c - 1

/-- The exponent of the leading digit of a finite number. -/
def adjusted : Decimal → Int
  | .finite _ c e => leading c e
  | _ => 0

/-- The exponent of the last digit of a finite number. -/
def exponent : Decimal → Int
  | .finite _ _ e => e
  | _ => 0

/-- The number `c * 10 ^ e` with a sign; what is too large becomes infinite. -/
def bounded (negative : Bool) (c : Nat) (e : Int) : Decimal :=
  if limit < leading c e then .infinite negative else .finite negative c e

/-- Rounds `c * 10 ^ e` to `precision` digits, half to even, and into the range of exponents:
what is too large becomes infinite, what is too small loses digits. -/
def rounded (precision : Nat) (negative : Bool) (c : Nat) (e : Int) : Decimal :=
  if c = 0 then .finite negative 0 (max (tiniest precision) (min e limit))
  else
    let excess : Int := Number.digitCount c - precision
    let drop := (max excess (tiniest precision - e)).toNat
    let kept := if drop = 0 then c else Number.dropDigits .halfEven negative c drop
    if precision < Number.digitCount kept then bounded negative (kept / 10) (e + drop + 1)
    else bounded negative kept (e + drop)

/-- Rounds a number to `precision` digits. -/
def round (precision : Nat) : Decimal → Decimal
  | .finite s c e => rounded precision s c e
  | x => x

def negate : Decimal → Decimal
  | .finite s c e => .finite (!s) c e
  | .infinite s => .infinite (!s)
  | .nan => .nan

def magnitude : Decimal → Decimal
  | .finite _ c e => .finite false c e
  | .infinite _ => .infinite false
  | .nan => .nan

def abs (precision : Nat) (x : Decimal) : Decimal :=
  x.magnitude.round precision

/-- Zero loses its sign. -/
def plus (precision : Nat) (x : Decimal) : Decimal :=
  if x.isZero then x.magnitude.round precision else x.round precision

def minus (precision : Nat) (x : Decimal) : Decimal :=
  if x.isZero then x.magnitude.round precision else x.negate.round precision

def signed (negative : Bool) (c : Nat) : Int :=
  if negative then -(c : Int) else c

/-- The signed sum of two aligned numbers. A sum of zero is negative only if both terms are. -/
def addAligned (precision : Nat) (s : Bool) (c : Nat) (t : Bool) (d : Nat) (e : Int) : Decimal :=
  let n := signed s c + signed t d
  if n = 0 then rounded precision (s && t) 0 e
  else rounded precision (n < 0) n.natAbs e

/-- The sum of two finite numbers, the first with the higher exponent. A second number far below
the last digit that counts is replaced by a smaller stand-in that rounds in the same way. -/
def addScaled (precision : Nat) (s : Bool) (c : Nat) (e : Int) (t : Bool) (d : Nat) (f : Int) :
    Decimal :=
  if c = 0 then addAligned precision s 0 t d f
  else
    let digits := Number.digitCount c
    let floor : Int := e - 1 + if precision < digits then 0 else (digits : Int) - precision - 1
    if leading d f < floor then
      addAligned precision s (c * Number.tenPow (e - floor).toNat) t (min d 1) floor
    else addAligned precision s (c * Number.tenPow (e - f).toNat) t d f

def add (precision : Nat) : Decimal → Decimal → Decimal
  | .nan, _ => .nan
  | _, .nan => .nan
  | .infinite s, .infinite t => if s = t then .infinite s else .nan
  | .infinite s, .finite .. => .infinite s
  | .finite .., .infinite t => .infinite t
  | .finite s c e, .finite t d f =>
    if f ≤ e then addScaled precision s c e t d f else addScaled precision t d f s c e

def subtract (precision : Nat) (x y : Decimal) : Decimal :=
  add precision x y.negate

def multiply (precision : Nat) : Decimal → Decimal → Decimal
  | .nan, _ => .nan
  | _, .nan => .nan
  | .infinite s, .infinite t => .infinite (s != t)
  | .infinite s, .finite t d _ => if d = 0 then .nan else .infinite (s != t)
  | .finite s c _, .infinite t => if c = 0 then .nan else .infinite (s != t)
  | .finite s c e, .finite t d f => rounded precision (s != t) (c * d) (e + f)

/-- The number `c * 10 ^ e` without the zeros at the end of `c`, of which at most `extra` are dropped,
where `extra < 2 ^ bits`. -/
def dropZeros : Nat → Nat → Nat → Int → Nat × Int
  | 0, _, c, e => (c, e)
  | bits + 1, extra, c, e =>
    let k := Number.twoPow bits
    if k ≤ extra ∧ c % Number.tenPow k = 0 then
      dropZeros bits (extra - k) (c / Number.tenPow k) (e + k)
    else dropZeros bits extra c e

/-- Rounds a magnitude of which `c * 10 ^ e` is the part that is known, `inexact` telling that a
smaller part was cut off. The known part has more than `precision` digits if it is inexact;
otherwise zeros among its last `extra` digits are dropped. -/
def roundedSticky (precision : Nat) (negative : Bool) (c : Nat) (e : Int) (extra : Nat)
    (inexact : Bool) : Decimal :=
  if inexact then rounded precision negative (c * 10 + 1) (e - 1)
  else
    let kept := dropZeros (extra.log2 + 1) extra c e
    rounded precision negative kept.1 kept.2

/-- The quotient of two finite numbers, the second not zero. -/
def divideFinite (precision : Nat) (s : Bool) (c : Nat) (e : Int) (t : Bool) (d : Nat) (f : Int) :
    Decimal :=
  if c = 0 then rounded precision (s != t) 0 (e - f)
  else
    let shift := precision + 2 + Number.digitCount d - Number.digitCount c
    let n := c * Number.tenPow shift
    roundedSticky precision (s != t) (n / d) (e - f - shift) shift (n % d != 0)

/-- Division by zero gives an infinity, or NaN for zero by zero. -/
def divide (precision : Nat) : Decimal → Decimal → Decimal
  | .nan, _ => .nan
  | _, .nan => .nan
  | .infinite _, .infinite _ => .nan
  | .infinite s, .finite t _ _ => .infinite (s != t)
  | .finite s _ _, .infinite t => .finite (s != t) 0 (tiniest precision)
  | .finite s c e, .finite t d f =>
    if d = 0 then if c = 0 then .nan else .infinite (s != t)
    else divideFinite precision s c e t d f

def compareMagnitude (c : Nat) (e : Int) (d : Nat) (f : Int) : Ordering :=
  if c = 0 ∨ d = 0 then compare c d
  else
    let order := compare (leading c e) (leading d f)
    if order = .eq then
      if f ≤ e then compare (c * Number.tenPow (e - f).toNat) d
      else compare c (d * Number.tenPow (f - e).toNat)
    else order

def order? : Decimal → Decimal → Option Ordering
  | .nan, _ => none
  | _, .nan => none
  | .infinite s, .infinite t =>
    some (if s = t then .eq else if s then .lt else .gt)
  | .infinite s, .finite .. => some (if s then .lt else .gt)
  | .finite .., .infinite t => some (if t then .gt else .lt)
  | .finite s c e, .finite t d f =>
    if c = 0 ∧ d = 0 then some .eq
    else if c = 0 then some (if t then .gt else .lt)
    else if d = 0 then some (if s then .lt else .gt)
    else if s = t then
      some (if s then compareMagnitude d f c e else compareMagnitude c e d f)
    else some (if s then .lt else .gt)

def sameValue (x y : Decimal) : Bool :=
  x.order? y == some .eq

/-- Rounds to an integer. A number without fractional digits stays as it is, and zero keeps its
sign. -/
def toIntegral (mode : Number.Rounding) : Decimal → Decimal
  | .finite s c e =>
    if 0 ≤ e then .finite s c e else .finite s (Number.dropDigits mode s c (-e).toNat) 0
  | x => x

def isIntegral (x : Decimal) : Bool :=
  x.isFinite && x.sameValue (x.toIntegral .halfEven)

def toInt : Decimal → Int
  | .finite s c e =>
    signed s (if 0 ≤ e then c * Number.tenPow e.toNat else c / Number.tenPow (-e).toNat)
  | _ => 0

/-- Rounds a finite number to a multiple of `10 ^ exponent`, away from zero on a tie, unless it is
one already. -/
def quantized (exponent : Int) : Decimal → Decimal
  | .finite s c e =>
    if exponent ≤ e then .finite s c e
    else .finite s (Number.dropDigits .halfUp s c (exponent - e).toNat) exponent
  | x => x

/-- The remainder of two finite numbers with the sign of the first, NaN if the integer part of the
quotient has more than `precision` digits. -/
def remainderFinite (precision : Nat) (s : Bool) (c : Nat) (e : Int) (d : Nat) (f : Int) :
    Decimal :=
  let exponent := min e f
  if c = 0 then rounded precision s 0 exponent
  else if compareMagnitude c e d f = .lt then rounded precision s c e
  else if (precision : Int) < leading c e - leading d f then .nan
  else
    let n := c * Number.tenPow (e - exponent).toNat
    let m := d * Number.tenPow (f - exponent).toNat
    if precision < Number.digitCount (n / m) then .nan
    else rounded precision s (n % m) exponent

def remainder (precision : Nat) : Decimal → Decimal → Decimal
  | .nan, _ => .nan
  | _, .nan => .nan
  | .infinite _, _ => .nan
  | .finite s c e, .infinite _ => rounded precision s c e
  | .finite s c e, .finite _ d f =>
    if d = 0 then .nan else remainderFinite precision s c e d f

def scaled (precision : Nat) (shift : Int) : Decimal → Decimal
  | .finite s c e => rounded precision s c (e + shift)
  | x => x

end Decimal

end Abacus
