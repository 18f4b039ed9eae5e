import Abacus.Complex.Basic

/-! Circular, hyperbolic and inverse functions of complex numbers, and cube roots. -/

namespace Abacus.Complex

open Binary (Precision)

def cos (p : Precision) (z : Complex) : Complex :=
  if z.im.isZero then ofReal (z.re.cos p)
  else if z.re.isZero then ofReal (z.im.cosh p)
  else
    let g := p.guarded 6
    ⟨(z.re.cos g).mul p (z.im.cosh g), ((z.re.sin g).mul p (z.im.sinh g)).neg⟩

def sin (p : Precision) (z : Complex) : Complex :=
  if z.im.isZero then ofReal (z.re.sin p)
  else if z.re.isZero then ⟨.zero, z.im.sinh p⟩
  else
    let g := p.guarded 6
    ⟨(z.re.sin g).mul p (z.im.cosh g), (z.re.cos g).mul p (z.im.sinh g)⟩

/-- `(sin 2a + i sinh 2b) / (cos 2a + cosh 2b)` for `a + b i`. -/
def tan (p : Precision) (z : Complex) : Complex :=
  if z.im.isZero then ofReal (z.re.tan p)
  else if z.re.isZero then ⟨.zero, z.im.tanh p⟩
  else
    let g := p.guarded 15
    let a := z.re.shift 1
    let b := z.im.shift 1
    let n := (a.cos g).add g (b.cosh g)
    ⟨(a.sin g).div p n, (b.sinh g).div p n⟩

/-- The number reflected in the diagonal: `i` times its conjugate. -/
def swap (z : Complex) : Complex := ⟨z.im, z.re⟩

def cosh (p : Precision) (z : Complex) : Complex :=
  cos p ⟨z.im, z.re.neg⟩

def sinh (p : Precision) (z : Complex) : Complex :=
  (sin p z.swap).swap

def tanh (p : Precision) (z : Complex) : Complex :=
  (tan p z.swap).swap

/-- `i / 2` times the difference of the logarithms of `1 - i z` and `1 + i z`. -/
def atan (p : Precision) (z : Complex) : Complex :=
  let g := p.guarded 15
  let x : Complex := ⟨Binary.one.add g z.im, z.re.neg⟩
  let y : Complex := ⟨Binary.one.sub g z.im, z.re⟩
  let d := (x.ln g).sub p (y.ln g)
  let im := d.re.shift (-1)
  ⟨(d.im.shift (-1)).neg, if im.isNaN && z.isInfinite then .zero else im⟩

/-- Half the difference of the logarithms of `1 + z` and `1 - z`. -/
def atanh (p : Precision) (z : Complex) : Complex :=
  let g := p.guarded 15
  let d := ((z.add g one).ln g).sub g ((one.sub g z).ln g)
  let re := d.re.shift (-1)
  ⟨if re.isNaN && z.isInfinite then .zero else re, d.im.shift (-1)⟩

/-- What the arc sine and the arc cosine of `a + b i` are made of, for `a` and `b` that are not
negative: the distances `r` and `s` from `-1` and `1`, half their sum, and `a` over that. -/
structure Foci where
  a : Binary
  b : Binary
  right : Binary
  left : Binary
  r : Binary
  s : Binary
  alpha : Binary
  beta : Binary

def foci (g : Precision) (a b : Binary) : Foci :=
  let right := Binary.one.sub g a
  let left := Binary.one.add g a
  let r := Binary.hypot g left b
  let s := Binary.hypot g right b
  let alpha := (r.add g s).shift (-1)
  ⟨a, b, right, left, r, s, alpha, a.div g alpha⟩

/-- Above this `beta` the angle is taken from its tangent. -/
def betaCrossover : Binary := .normal 5779919761767295 (-53)

/-- Above this `alpha` the logarithm is taken of `alpha` itself. -/
def alphaCrossover : Binary := .normal 3 (-1)

/-- The real part: the arc cosine or the arc sine of `beta`, worked out so that no digits cancel. -/
def Foci.angle (g : Precision) (f : Foci) (sine : Bool) : Binary :=
  if f.beta.le betaCrossover then if sine then f.beta.asin g else f.beta.acos g
  else
    let sum := f.alpha.add g f.a
    let root :=
      if !f.right.isNegative then
        let c := (f.b.mul g f.b).div g (f.r.add g f.left)
        let d := f.s.add g f.right
        ((sum.mul g (c.add g d)).shift (-1)).sqrt g
      else
        let c := sum.div g (f.r.add g f.left)
        let d := sum.div g (f.s.sub g f.right)
        f.b.mul g (((c.add g d).shift (-1)).sqrt g)
    if sine then (f.a.div g root).atan g else (root.div g f.a).atan g

/-- The imaginary part: the logarithm of `alpha + sqrt (alpha² - 1)`. -/
def Foci.height (g : Precision) (f : Foci) : Binary :=
  if f.alpha.le alphaCrossover then
    let square := f.b.mul g f.b
    let c := square.div g (f.r.add g f.left)
    let d :=
      if f.right.neg.isNegative then square.div g (f.s.add g f.right) else f.s.sub g f.right
    let beyond := (c.add g d).shift (-1)
    let root := (beyond.mul g (f.alpha.add g .one)).sqrt g
    (Binary.one.add g (beyond.add g root)).ln g
  else
    let root := ((f.alpha.mul g f.alpha).sub g .one).sqrt g
    (f.alpha.add g root).ln g

def acosOff (p : Precision) (z : Complex) : Complex :=
  let g := p.guarded 10
  let f := foci g z.re.abs z.im.abs
  let re := f.angle g false
  let re := if z.re.isNegative then (Binary.pi g).sub g re else re
  let im := f.height g
  ⟨re.pos p, (if z.im.isNegative then im else im.neg).pos p⟩

def acos (p : Precision) (z : Complex) : Complex :=
  if !z.im.isZero then acosOff p z
  else if !Binary.one.lt z.re.abs then ofReal (z.re.acos p)
  else if z.re.isNegative then ⟨Binary.pi p, (z.re.neg.acosh p).neg⟩
  else ⟨.zero, z.re.acosh p⟩

def asinOff (p : Precision) (z : Complex) : Complex :=
  let g := p.guarded 10
  let f := foci g z.re.abs z.im.abs
  ⟨(Binary.withSign z.re (f.angle g true)).pos p, (Binary.withSign z.im (f.height g)).pos p⟩

def asin (p : Precision) (z : Complex) : Complex :=
  if !z.im.isZero then asinOff p z
  else if !Binary.one.lt z.re.abs then ofReal (z.re.asin p)
  else
    let quarter := (Binary.pi p).shift (-1)
    if z.re.isNegative then ⟨quarter.neg, z.re.neg.acosh p⟩
    else ⟨quarter, (z.re.acosh p).neg⟩

/-- `i asin (-i z)`. -/
def asinh (p : Precision) (z : Complex) : Complex :=
  let w := asin p ⟨z.im, z.re.neg⟩
  ⟨w.im.neg, w.re⟩

/-- `i acos z` or its negative, the one with a real part that is not negative. -/
def acosh (p : Precision) (z : Complex) : Complex :=
  let w := acos p z
  if w.im.isNegative || w.im.isZero then ⟨w.im.neg, w.re⟩ else ⟨w.im, w.re.neg⟩

/-- The cube root with the smallest angle. It has more bits than asked for if the number is neither
very small nor very large. -/
def cbrt (p : Precision) (z : Complex) : Complex :=
  if z.im.isZero && !z.re.isNegative then ofReal (z.re.cbrt p)
  else
    let third (g : Precision) : Binary := Binary.one.div (.down g.bits) (.ofInt 3)
    let size := (z.abs p).mag
    if -10 < size ∧ size < p.bits ∧ z.isFinite then
      let q := Precision.nearest ((p.bits + 10) * 12 / 10)
      let g := q.guarded 30
      (z.powReal g (third (g.guarded 10))).pos q
    else
      let g : Precision := ⟨p.bits + 20, p.cut⟩
      (z.powReal g (third g)).pos p

end Abacus.Complex
