import Abacus.Number.Digits

/-! Elementary functions on fixed-point numbers. A number is given by `v` with `k` binary places,
that is `v / 2 ^ k`; results are off by a few units of the last place. Sums are taken with guard
places. -/

namespace Abacus.Number

def guard : Nat := 32

/-- The floor of `a / 2 ^ k`. -/
def shiftDown (a : Int) (k : Nat) : Int :=
  a / twoPow k

def shiftUp (a : Int) (k : Nat) : Int :=
  a * twoPow k

/-- The product of two numbers with `k` places. -/
def mulFixed (k : Nat) (a b : Int) : Int :=
  shiftDown (a * b) k

/-- The quotient of two numbers with `k` places. -/
def divFixed (k : Nat) (a b : Int) : Int :=
  shiftUp a k / b

/-- Sums `t / (2 i + 1)` for `i` from `i` on, where each `t` is the one before times `p / q`. -/
def oddSeries (p q : Int) : Nat → Nat → Int → Int → Int
  | 0, _, _, sum => sum
  | fuel + 1, i, t, sum =>
    if t = 0 ∨ t = -1 then sum
    else oddSeries p q fuel (i + 1) (t * p / q) (sum + t / ((2 * i + 1 : Nat) : Int))

/-- `artanh (p / q)` with `k` places. -/
def artanhRatio (k p q : Nat) : Int :=
  let w := k + guard
  let t : Int := ((twoPow w * p / q : Nat) : Int)
  shiftDown (oddSeries (p * p : Nat) (q * q : Nat) w 0 t 0) guard

/-- `arctan (p / q)` with `k` places. -/
def arctanRatio (k p q : Nat) : Int :=
  let w := k + guard
  let t : Int := ((twoPow w * p / q : Nat) : Int)
  shiftDown (oddSeries (-(p * p : Nat)) (q * q : Nat) w 0 t 0) guard

def piFixed (k : Nat) : Int :=
  let w := k + 8
  shiftDown (16 * arctanRatio w 1 5 - 4 * arctanRatio w 1 239) 8

def ln2Fixed (k : Nat) : Int :=
  let w := k + 8
  shiftDown (18 * artanhRatio w 1 26 - 2 * artanhRatio w 1 4801 + 8 * artanhRatio w 1 8749) 8

def ln10Fixed (k : Nat) : Int :=
  let w := k + 8
  shiftDown (46 * artanhRatio w 1 31 + 34 * artanhRatio w 1 49 + 20 * artanhRatio w 1 161) 8

/-- Sums `t` and the terms after it, the `i`-th of which is the one before times `x / i`. -/
def expSeries (k : Nat) (x : Int) : Nat → Nat → Int → Int → Int
  | 0, _, _, sum => sum
  | fuel + 1, i, t, sum =>
    if t = 0 ∨ t = -1 then sum
    else expSeries k x fuel (i + 1) (mulFixed k t x / (i : Int)) (sum + t)

/-- `e ^ x` for `x` at most about 3 in magnitude. -/
def expFixed (k : Nat) (x : Int) : Int :=
  let w := k + guard
  shiftDown (expSeries w (shiftUp x guard) (2 * w + 32) 1 (shiftUp 1 w) 0) guard

/-- Sums `t` and the terms after it, each the one before times `-x² / ((i + 1) (i + 2))`. -/
def alternatingSeries (k : Nat) (square : Int) : Nat → Nat → Int → Int → Int
  | 0, _, _, sum => sum
  | fuel + 1, i, t, sum =>
    if t = 0 ∨ t = -1 then sum
    else
      alternatingSeries k square fuel (i + 2)
        (-(mulFixed k t square / (((i + 1) * (i + 2) : Nat) : Int))) (sum + t)

/-- Sine and cosine of `x` for `x` at most about 1 in magnitude. -/
def sinCosFixed (k : Nat) (x : Int) : Int × Int :=
  let w := k + guard
  let y := shiftUp x guard
  let square := mulFixed w y y
  (shiftDown (alternatingSeries w square w 1 y 0) guard,
    shiftDown (alternatingSeries w square w 0 (shiftUp 1 w) 0) guard)

/-- Sums `t / (2 i + 1)` for `i` from `i` on, where each `t` is the one before times `square`. -/
def oddPowers (k : Nat) (square : Int) : Nat → Nat → Int → Int → Int
  | 0, _, _, sum => sum
  | fuel + 1, i, t, sum =>
    if t = 0 ∨ t = -1 then sum
    else oddPowers k square fuel (i + 1) (mulFixed k t square) (sum + t / ((2 * i + 1 : Nat) : Int))

/-- The logarithm of `m`, which lies between 1 and 2. -/
def lnFixed (k : Nat) (m : Int) : Int :=
  let w := k + guard
  let n := shiftUp m guard
  let i := (shiftDown n (w - 4)).toNat - 16
  let c := shiftUp ((16 + i : Nat) : Int) (w - 4)
  let t := divFixed w (n - c) (n + c)
  let near := 2 * oddPowers w (mulFixed w t t) w 0 t 0
  shiftDown (near + 2 * artanhRatio w i (32 + i)) guard

/-- The arc tangent of `x`, which lies between 0 and about 0.4. -/
def arctanSmall (k : Nat) (x : Int) : Int :=
  let w := k + guard
  let y := shiftUp x guard
  let i := (shiftDown y (w - 4)).toNat
  let c := shiftUp ((i : Nat) : Int) (w - 4)
  let t := divFixed w (y - c) (shiftUp 1 w + mulFixed w y c)
  let near := oddPowers w (-(mulFixed w t t)) w 0 t 0
  shiftDown (near + arctanRatio w i 16) guard

/-- The arc tangent of `x`, which lies between 0 and 1. -/
def arctanFixed (k : Nat) (x : Int) : Int :=
  let one := shiftUp 1 k
  if 16 * x < 7 * one then arctanSmall k x
  else shiftDown (piFixed k) 2 - arctanSmall k (divFixed k (one - x) (one + x))

end Abacus.Number
