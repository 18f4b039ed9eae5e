import Abacus.Decimal.Basic
import Abacus.Number.Fixed
import Abacus.Number.Root

/-! Roots, logarithms, exponentials and powers of decimal numbers, rounded half to even. -/

namespace Abacus.Decimal

/-- The square root; a negative number has none. -/
def sqrt (precision : Nat) : Decimal → Decimal
  | .nan => .nan
  | .infinite s => if s then .nan else .infinite false
  | .finite s c e =>
    if c = 0 then rounded precision s 0 (e / 2)
    else if s then .nan
    else
      let odd := (e % 2).toNat
      let c := c * Number.tenPow odd
      let k := precision + 2 - Number.digitCount c / 2
      let n := c * Number.tenPow (2 * k)
      let r := Number.integerRoot n 2
      roundedSticky precision false r ((e - odd) / 2 - k) k (r * r != n)

/-- The floor of `c * 10 ^ e` with `k` binary places. -/
def fixed (k : Nat) (c : Nat) (e : Int) : Int :=
  if 3 * leading c e < -(k : Int) - 10 then 0
  else if 0 ≤ e then ((c * Number.tenPow e.toNat * Number.twoPow k : Nat) : Int)
  else ((c * Number.twoPow k / Number.tenPow (-e).toNat : Nat) : Int)

/-- The number `v / 2 ^ k * 10 ^ q`, with `v` off by 8 at most, rounded to `precision` digits if
that error does not matter. -/
def settled? (precision k : Nat) (v q : Int) : Option Decimal :=
  let s := k * 3 / 10
  let scale (n : Nat) : Nat := n * Number.tenPow s / Number.twoPow k
  let low := roundedSticky precision (v < 0) (scale (v.natAbs - 8)) (q - s) 0 true
  let high := roundedSticky precision (v < 0) (scale (v.natAbs + 8) + 1) (q - s) 0 true
  if 8 < v.natAbs ∧ low = high then some low else none

/-- Takes estimates with more and more binary places until one settles the result. -/
def settle (precision : Nat) (estimate : Nat → Int × Int) : Nat → Nat → Decimal
  | 0, _ => .nan
  | fuel + 1, k =>
    let (v, q) := estimate k
    match settled? precision k v q with
    | some x => x
    | none => settle precision estimate fuel (2 * k)

def firstPlaces (precision : Nat) : Nat :=
  precision * 10 / 3 + 48

/-- `e ^ x` for `x` given as `c * 10 ^ e` with a sign, as a number between 1 and 10 with `k`
places and a power of ten. -/
def expEstimate (negative : Bool) (c : Nat) (e : Int) (k : Nat) : Int × Int :=
  let w := k + 80
  let x := if negative then -(fixed w c e) else fixed w c e
  let ten := Number.ln10Fixed w
  let q := x / ten
  (Number.shiftDown (Number.expFixed w (x - q * ten)) 80, q)

def exp (precision : Nat) : Decimal → Decimal
  | .nan => .nan
  | .infinite s => if s then zero else .infinite false
  | .finite s c e =>
    if c = 0 then one
    else if 20 ≤ leading c e then
      if s then .finite false 0 (tiniest precision) else .infinite false
    else settle precision (expEstimate s c e) 24 (firstPlaces precision)

/-- The natural logarithm of `c * 10 ^ e` with `k` places. -/
def lnFixed (c : Nat) (e : Int) (k : Nat) : Int :=
  let w := k + 80
  let b := c.log2
  let m := if b ≤ w then c * Number.twoPow (w - b) else c / Number.twoPow (b - w)
  Number.shiftDown
    (Number.lnFixed w m + b * Number.ln2Fixed w + e * Number.ln10Fixed w) 80

def ln (precision : Nat) : Decimal → Decimal
  | .nan => .nan
  | .infinite s => if s then .nan else .infinite false
  | .finite s c e =>
    if c = 0 then .infinite true
    else if s then .nan
    else if sameValue (.finite false c e) one then zero
    else settle precision (fun k => (lnFixed c e k, 0)) 24 (firstPlaces precision)

/-- The decimal logarithm, exact for a power of ten. -/
def log10 (precision : Nat) : Decimal → Decimal
  | .nan => .nan
  | .infinite s => if s then .nan else .infinite false
  | .finite s c e =>
    if c = 0 then .infinite true
    else if s then .nan
    else if c = Number.tenPow (Number.digitCount c - 1) then (ofInt (leading c e)).round precision
    else
      let estimate (k : Nat) : Int × Int :=
        let w := k + 64
        (Number.shiftDown (Number.divFixed w (lnFixed c e w) (Number.ln10Fixed w)) 64, 0)
      settle precision estimate 24 (firstPlaces precision)

/-- `base ^ n` for `n` at least 1, every product rounded; the fuel bounds the binary digits
of `n`. -/
def powerSteps (precision : Nat) (base : Decimal) : Nat → Nat → Decimal
  | 0, _ => base
  | fuel + 1, n =>
    if n ≤ 1 then base
    else
      let half := powerSteps precision base fuel (n / 2)
      let square := multiply precision half half
      if n % 2 = 1 then multiply precision square base else square

/-- `base ^ exponent` for a base that is finite and not zero and an exponent that is an integer
and not zero. -/
def powerInt (precision : Nat) (base exponent : Decimal) : Decimal :=
  let width := precision + (exponent.adjusted + 3).toNat
  let n := exponent.toInt.natAbs
  let result :=
    if exponent.isNegative then
      powerSteps (width + 1) (divide (width + 1) one base) (Number.bitLength n) n
    else powerSteps width base (Number.bitLength n) n
  result.round precision

/-- `base ^ exponent` for a positive base, by way of the logarithm. -/
def powerReal (precision : Nat) (base exponent : Decimal) : Decimal :=
  let digits := match base with
    | .finite _ c _ => Number.digitCount c
    | _ => 1
  let width := max digits precision + 23
  (exp width (multiply width (ln width base) exponent)).round precision

/-- The sign of a result that is certainly out of range: positive if it is too large, negative if
it is too small. Only exponents far beyond the range of results are looked at. -/
def outOfRange? (base exponent : Decimal) : Option Bool :=
  if 40 < exponent.adjusted then
    let size := multiply 25 (ln 25 base.magnitude) exponent
    if 20 ≤ size.adjusted then some (!size.isNegative) else none
  else none

def powerFinite (precision : Nat) (base exponent : Decimal) (negative : Bool) : Decimal :=
  match outOfRange? base exponent with
  | some true => .infinite negative
  | some false => .finite negative 0 (tiniest precision)
  | none =>
    if exponent.isIntegral then powerInt precision base exponent
    else powerReal precision base exponent

def isOdd : Decimal → Bool
  | .finite _ c e => if 0 < e then false else c / Number.tenPow (-e).toNat % 2 == 1
  | _ => false

/-- Zero to the power of zero is NaN, and so is a negative base with an exponent that is no
integer. -/
def power (precision : Nat) (base exponent : Decimal) : Decimal :=
  if base.isNaN || exponent.isNaN then .nan
  else
    let negative := base.isNegative && exponent.isIntegral && exponent.isOdd
    if base.isZero then
      if exponent.isZero then .nan
      else if exponent.isNegative then .infinite negative
      else .finite negative 0 0
    else if base.isNegative && !exponent.isIntegral then .nan
    else
      match base, exponent with
      | _, .infinite s =>
        match base.order? one with
        | some .eq => one
        | some .gt => if s then zero else .infinite false
        | _ => if s then .infinite false else zero
      | .infinite _, _ =>
        if exponent.isZero then one
        else if exponent.isNegative then .finite negative 0 0
        else .infinite negative
      | _, _ =>
        if exponent.isZero then one
        else if base.magnitude.sameValue one then .finite negative 1 0
        else powerFinite precision base exponent negative

end Abacus.Decimal
