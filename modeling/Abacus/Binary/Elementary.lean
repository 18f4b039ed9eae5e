import Abacus.Binary.Text
import Abacus.Binary.Estimate

/-! Elementary functions of a real argument. The exponential, the logarithm, the circular and
hyperbolic functions and the arc tangent are rounded correctly; the others are composed of them
with guard bits. A function gives NaN where it is not defined. -/

namespace Abacus.Binary

def wholePlaces (x : Binary) : Nat :=
  x.mag.toNat + 16

/-- `e ^ x`: with `x = n ln 2 + r` it is `e ^ r * 2 ^ n`. -/
def expEstimate (x : Binary) (k : Nat) : Estimate :=
  let extra := wholePlaces x
  let w := k + extra
  let ln2 := Number.ln2Fixed w
  let v := x.fixed w
  let n := v / ln2
  ⟨Number.shiftDown (Number.expFixed w (v - n * ln2)) extra, n - k, 4⟩

def exp (p : Precision) (x : Binary) : Binary :=
  match x with
  | .nan => .nan
  | .infinite s => if s then zero else .infinite false
  | .finite m _ =>
    if m = 0 then one
    else if x.mag < -(p.bits : Int) - 14 then nudged p one (0 < m)
    else settle p (expEstimate x)

/-- The logarithm of `m * 2 ^ e` for a positive `m`. -/
def lnEstimate (m : Nat) (e : Int) (k : Nat) : Estimate :=
  let b := m.log2
  let q := e + b
  let extra := Number.bitLength q.natAbs + 16
  let w := k + extra
  let t := if b ≤ w then m <<< (w - b) else m >>> (b - w)
  ⟨Number.shiftDown (Number.lnFixed w (t : Int) + q * Number.ln2Fixed w) extra, -k, 4⟩

/-- The natural logarithm of a number that is not negative. -/
def ln (p : Precision) (x : Binary) : Binary :=
  match x with
  | .nan => .nan
  | .infinite s => if s then .nan else .infinite false
  | .finite m e =>
    if m = 0 then .infinite true
    else if m < 0 then .nan
    else if x = one then zero
    else settle p (lnEstimate m.natAbs e)

/-- Sine and cosine with `k` places, off by 4 units at most: with `x = n π / 2 + r` they are those
of `r` up to sign and order. -/
def sinCosPlaces (x : Binary) (k : Nat) : Int × Int :=
  let extra := wholePlaces x
  let w := k + extra
  let pi := Number.piFixed w
  let v := x.fixed w
  let n := (4 * v + pi) / (2 * pi)
  let (s, c) := Number.sinCosFixed w (v - n * pi / 2)
  let s := Number.shiftDown s extra
  let c := Number.shiftDown c extra
  match (n % 4).toNat with
  | 0 => (s, c)
  | 1 => (c, -s)
  | 2 => (-s, -c)
  | _ => (-c, s)

/-- Whether a number is so small that its square does not count beside 1. -/
def isTiny (p : Precision) (x : Binary) : Bool :=
  2 * x.mag < -(p.bits : Int) - 20

/-- An odd function that is 0 at 0, is not defined at infinity, and has the slope 1 at 0. -/
def oddFunction (p : Precision) (larger : Bool) (estimate : Nat → Estimate) (x : Binary) :
    Binary :=
  if x.isZero then zero else if isTiny p x then nudged p x larger else settle p estimate

def sin (p : Precision) (x : Binary) : Binary :=
  if x.isFinite then oddFunction p false (fun k => ⟨(sinCosPlaces x k).1, -k, 5⟩) x else .nan

def cos (p : Precision) (x : Binary) : Binary :=
  if !x.isFinite then .nan
  else if x.isZero then one
  else if isTiny p x then nudged p one false
  else settle p (fun k => ⟨(sinCosPlaces x k).2, -k, 5⟩)

/-- The quotient of two numbers with `k` places that are off by 5 units at most. -/
def quotientEstimate (a b : Int) (k : Nat) : Estimate :=
  let v := Number.shiftUp a k / b
  if b.natAbs ≤ 5 then ⟨0, 0, 1⟩
  else ⟨v, -k, (5 * Number.twoPow k + 5 * v.natAbs) / (b.natAbs - 5) + 2⟩

def tan (p : Precision) (x : Binary) : Binary :=
  if x.isFinite then
    oddFunction p true (fun k =>
      let (s, c) := sinCosPlaces x k
      quotientEstimate s c k) x
  else .nan

/-- `(e ^ x + e ^ (-x)) / 2`, or the same with a minus, for a positive `x`. -/
def hyperbolicEstimate (minus : Bool) (x : Binary) (k : Nat) : Estimate :=
  let ⟨v, e, _⟩ := expEstimate x k
  let w := (Number.twoPow (2 * k) : Int) / v
  -- the second power of two is smaller by `2 (e + k)` bits
  let gap := (2 * (e + k)).toNat
  let w := if 2 * k < gap then 0 else Number.shiftDown w gap
  ⟨if minus then v - w else v + w, e - 1, 12⟩

/-- A function of the magnitude, with the sign of the argument. -/
def withSign (x y : Binary) : Binary :=
  if x.isNegative then y.neg else y

def sinh (p : Precision) (x : Binary) : Binary :=
  if x.isFinite then
    withSign x (oddFunction p true (hyperbolicEstimate true x.abs) x.abs)
  else x

def cosh (p : Precision) (x : Binary) : Binary :=
  if !x.isFinite then x.abs
  else if x.isZero then one
  else if isTiny p x then nudged p one true
  else settle p (hyperbolicEstimate false x.abs)

/-- `(1 - y) / (1 + y)` with `y = e ^ (-2 x)`, for a positive `x`. -/
def tanhEstimate (x : Binary) (k : Nat) : Estimate :=
  let one := Number.shiftUp 1 k
  let ⟨v, e, _⟩ := expEstimate (x.shift 1).neg k
  let y := Number.shiftDown v (-(e + k)).toNat
  ⟨Number.shiftUp (one - y) k / (one + y), -k, 16⟩

def tanh (p : Precision) (x : Binary) : Binary :=
  match x with
  | .nan => .nan
  | .infinite s => if s then one.neg else one
  | .finite .. =>
    if Number.bitLength (p.bits + 8) + 1 < x.mag then withSign x (nudged p one false)
    else withSign x (oddFunction p false (tanhEstimate x.abs) x.abs)

def atanEstimate (x : Binary) (k : Nat) : Estimate :=
  let w := k + 16
  let v :=
    if x.lt one then Number.arctanFixed w (x.fixed w)
    else
      Number.shiftDown (Number.piFixed w) 1 -
        Number.arctanFixed w ((div (.down (2 * w)) one x).fixed w)
  ⟨Number.shiftDown v 16, -k, 4⟩

def atan (p : Precision) (x : Binary) : Binary :=
  match x with
  | .nan => .nan
  | .infinite _ => withSign x ((pi p).shift (-1))
  | .finite .. =>
    if (p.bits : Int) + 20 < x.mag then withSign x ((pi p).shift (-1))
    else withSign x (oddFunction p false (atanEstimate x.abs) x.abs)

/-- The angle of the point with the coordinates `x` and `y`. -/
def atan2 (p : Precision) (y x : Binary) : Binary :=
  let halfTurn := pi p
  match y, x with
  | .nan, _ => .nan
  | _, .nan => .nan
  | .infinite _, .infinite _ => .nan
  | .infinite s, .finite .. => if s then (halfTurn.shift (-1)).neg else halfTurn.shift (-1)
  | .finite m _, .infinite s => if s then if m < 0 then halfTurn.neg else halfTurn else zero
  | .finite m _, .finite n _ =>
    if m = 0 then if n < 0 then halfTurn else zero
    else if n = 0 then withSign y (halfTurn.shift (-1))
    else
      let t := atan (p.guarded 4) (div (p.guarded 4) y.abs x)
      withSign y (if n < 0 then add p (pi (p.guarded 4)) t else t.pos p)

/-- `2 atan (x / (1 + sqrt (1 - x²)))`. -/
def asin (p : Precision) (x : Binary) : Binary :=
  if one.lt x.abs then .nan
  else
    let w := p.guarded 15
    let root := sqrt w (sub w one (mulExact x x))
    (atan p (div w x (add w one root))).shift 1

/-- `2 atan (sqrt (1 - x²) / (1 + x))`. -/
def acos (p : Precision) (x : Binary) : Binary :=
  if one.lt x.abs then .nan
  else if x = one.neg then pi p
  else
    let w := p.guarded 15
    let root := sqrt w (sub w one (mulExact x x))
    (atan p (div w root (add w one x))).shift 1

def smallBits (x : Binary) : Nat :=
  if x.mag < -8 then (-x.mag).toNat else 0

/-- `ln (x + sqrt (x² + 1))`. -/
def asinh (p : Precision) (x : Binary) : Binary :=
  if !x.isFinite || x.isZero then x
  else if x.mag < -(p.bits : Int) - 20 then nudged p x false
  else
    let w := p.guarded (20 + smallBits x)
    let root := sqrt w (add w (mulExact x x) one)
    withSign x (ln p (add w x.abs root))

/-- `ln (x + sqrt (x² - 1))`. -/
def acosh (p : Precision) (x : Binary) : Binary :=
  if x.lt one then .nan
  else
    let w := p.guarded 15
    ln p (add w x (sqrt w (sub w (mulExact x x) one)))

/-- `ln ((1 + x) / (1 - x)) / 2`. -/
def atanh (p : Precision) (x : Binary) : Binary :=
  if x.isZero then x
  else if x.abs = one then .infinite x.isNegative
  else if !x.abs.lt one then .nan
  else if x.mag < -(p.bits : Int) - 15 then nudged p x true
  else
    let w := p.guarded (15 + smallBits x)
    (ln p (div w (add w x one) (sub w one x))).shift (-1)

def cbrt (p : Precision) : Binary → Binary
  | .finite m e =>
    if m ≤ 0 then zero
    else
      let rest := (e % 3).toNat
      let n := m.natAbs <<< rest
      let k := p.bits + 4 - Number.bitLength n / 3
      let n := n <<< (3 * k)
      let r := Number.integerRoot n 3
      roundSticky p false r ((e - rest) / 3 - k) (r * r * r != n)
  | x => x

def hypot (p : Precision) (x y : Binary) : Binary :=
  if y.isZero then x.abs.pos p
  else if x.isZero then y.abs.pos p
  else sqrt p (add (p.guarded 4) (mulExact x x) (mulExact y y))

end Abacus.Binary
