import Abacus.Binary.Elementary
import Abacus.Binary.Power

/-! Complex numbers with binary parts: arithmetic, square roots, logarithms, exponentials and
powers. The argument of a number lies above `-π` and is at most `π`. -/

namespace Abacus

structure Complex where
  re : Binary
  im : Binary
  deriving DecidableEq

namespace Complex

open Binary (Precision)

def ofReal (x : Binary) : Complex := ⟨x, .zero⟩

def zero : Complex := ofReal .zero

def one : Complex := ofReal .one

def imaginaryUnit : Complex := ⟨.zero, .one⟩

def isZero (z : Complex) : Bool :=
  z.re.isZero && z.im.isZero

/-- Equal as numbers; a number with a part that is NaN equals nothing. -/
def eq (z w : Complex) : Bool :=
  z.re.eq w.re && z.im.eq w.im

def isFinite (z : Complex) : Bool :=
  z.re.isFinite && z.im.isFinite

def isInfinite (z : Complex) : Bool :=
  z.re.isInfinite || z.im.isInfinite

def hasNaN (z : Complex) : Bool :=
  z.re.isNaN || z.im.isNaN

def pos (p : Precision) (z : Complex) : Complex :=
  ⟨z.re.pos p, z.im.pos p⟩

def neg (p : Precision) (z : Complex) : Complex :=
  ⟨z.re.neg.pos p, z.im.neg.pos p⟩

/-- The number reflected in the real axis; only the imaginary part is rounded. -/
def conjugate (p : Precision) (z : Complex) : Complex :=
  ⟨z.re, z.im.neg.pos p⟩

def add (p : Precision) (z w : Complex) : Complex :=
  ⟨z.re.add p w.re, z.im.add p w.im⟩

def sub (p : Precision) (z w : Complex) : Complex :=
  ⟨z.re.sub p w.re, z.im.sub p w.im⟩

def mul (p : Precision) (z w : Complex) : Complex :=
  ⟨(z.re.mulExact w.re).sub p (z.im.mulExact w.im),
    (z.re.mulExact w.im).add p (z.im.mulExact w.re)⟩

def mulReal (p : Precision) (z : Complex) (x : Binary) : Complex :=
  ⟨z.re.mul p x, z.im.mul p x⟩

def square (p : Precision) (z : Complex) : Complex :=
  ⟨(z.re.mulExact z.re).sub p (z.im.mulExact z.im), (z.re.mul p z.im).shift 1⟩

def normSquare (p : Precision) (z : Complex) : Binary :=
  (z.re.mulExact z.re).add p (z.im.mulExact z.im)

/-- The quotient by a number that is not zero. A finite number by an infinite one is zero. -/
def div (p : Precision) (z w : Complex) : Complex :=
  if z.isFinite && w.isInfinite && !w.hasNaN then zero
  else
    let g := p.guarded 10
    let n := w.normSquare g
    let t := (z.re.mulExact w.re).add g (z.im.mulExact w.im)
    let u := (z.im.mulExact w.re).sub g (z.re.mulExact w.im)
    ⟨t.div p n, u.div p n⟩

def divReal (p : Precision) (z : Complex) (x : Binary) : Complex :=
  ⟨z.re.div p x, z.im.div p x⟩

def reciprocal (p : Precision) (z : Complex) : Complex :=
  let n := z.normSquare (p.guarded 10)
  ⟨z.re.div p n, (z.im.div p n).neg⟩

def abs (p : Precision) (z : Complex) : Binary :=
  Binary.hypot p z.re z.im

def arg (p : Precision) (z : Complex) : Binary :=
  Binary.atan2 p z.im z.re

/-- The root with a real part that is not negative. -/
def sqrt (p : Precision) (z : Complex) : Complex :=
  if z.im.isZero then
    if z.re.isNegative then ⟨.zero, z.re.neg.sqrt p⟩ else ⟨z.re.sqrt p, .zero⟩
  else
    let g := p.guarded 20
    let t := (z.abs g).add g z.re.abs
    let large := (t.shift (-1)).sqrt p
    let small := z.im.div p ((t.shift 1).sqrt g)
    if !z.re.isNegative then ⟨large, small⟩
    else if z.im.isNegative then ⟨small.neg, large.neg⟩
    else ⟨small, large⟩

/-- The logarithm of the distance from zero; a distance near 1 is worked out exactly first. -/
def lnAbs (p : Precision) (z : Complex) : Binary :=
  if z.hasNaN then .nan
  else if z.isInfinite then .infinite false
  else if z.re.isZero then z.im.abs.ln p
  else if z.im.isZero then z.re.abs.ln p
  else
    let a := z.re.mulExact z.re
    let b := z.im.mulExact z.im
    let n := a.add (p.guarded 20) b
    let gap := n.sub (.down 10) .one
    let n :=
      if gap.isZero || gap.mag < -10 then
        a.add (p.guarded (20 + (-(min a.lowest b.lowest)).toNat)) b
      else n
    (n.ln p).shift (-1)

def ln (p : Precision) (z : Complex) : Complex :=
  ⟨z.lnAbs p, z.arg p⟩

def exp (p : Precision) (z : Complex) : Complex :=
  if z.re.isZero then ⟨z.im.cos p, z.im.sin p⟩
  else if z.im.isZero then ⟨z.re.exp p, .zero⟩
  else
    let g : Precision := ⟨p.bits + 4, p.cut⟩
    let m := z.re.exp g
    ⟨m.mul p (z.im.cos g), m.mul p (z.im.sin g)⟩

/-- The `n`-th power of a number with integer parts; the fuel bounds the binary digits of `n`. -/
def intPower : Nat → Nat → Int → Int → Int → Int → Int × Int
  | 0, _, _, _, u, v => (u, v)
  | fuel + 1, n, a, b, u, v =>
    if n = 0 then (u, v)
    else
      let (u, v) := if n % 2 = 1 then (u * a - v * b, v * a + u * b) else (u, v)
      intPower fuel (n / 2) (a * a - b * b) (2 * a * b) u v

/-- A power with an exponent of at least 3, for a number off the axes: exact before the last
rounding if it is short. -/
def powNat (p : Precision) (z : Complex) (n : Nat) : Complex :=
  let long := (((z.ln (p.guarded 10)).mulReal (p.guarded 10) (.ofInt n)).exp p)
  match z.re, z.im with
  | .finite a e, .finite b f =>
    let width := max (Number.bitLength a.natAbs) (Number.bitLength b.natAbs)
    if n * ((e - f).natAbs + width) < 10000 then
      let g := min e f
      let a := a * Number.twoPow (e - g).toNat
      let b := b * Number.twoPow (f - g).toNat
      let (u, v) := intPower (Number.bitLength n) n a b 1 0
      ⟨.round p u (g * n), .round p v (g * n)⟩
    else long
  | _, _ => long

/-- A power of an imaginary number turns by a quarter with each factor. -/
def powImaginary (v : Binary) (n : Int) : Complex :=
  match (n % 4).toNat with
  | 0 => ⟨v, .zero⟩
  | 1 => ⟨.zero, v⟩
  | 2 => ⟨v.neg, .zero⟩
  | _ => ⟨.zero, v.neg⟩

def powPositive (p : Precision) (z : Complex) (n : Nat) : Complex :=
  match n with
  | 0 => one
  | 1 => z.pos p
  | 2 => z.square p
  | n => powNat p z n

def powInt (p : Precision) (z : Complex) (n : Int) : Complex :=
  if z.im.isZero then ofReal (z.re.powInt p n)
  else if z.re.isZero then powImaginary (z.im.powInt p n) n
  else if 0 ≤ n then powPositive p z n.toNat
  else if n = -1 then z.reciprocal p
  else (powPositive (p.guarded 4) z n.natAbs).reciprocal p

/-- A power with a real exponent: by repeated products if the exponent or its double is an integer,
else by way of the logarithm. -/
def powReal (p : Precision) (z : Complex) (x : Binary) : Complex :=
  let g := p.guarded 10
  let byLogarithm := (((z.ln g).mulReal g x).exp p)
  match x with
  | .finite m e =>
    if 0 ≤ e then z.powInt p (m * Number.twoPow e.toNat)
    else if e = -1 then (z.sqrt g).powInt p m
    else byLogarithm
  | _ => byLogarithm

def pow (p : Precision) (z w : Complex) : Complex :=
  if w.im.isZero then z.powReal p w.re
  else
    let g := p.guarded 10
    ((z.ln g).mul g w).exp p

end Complex

end Abacus
