import Abacus.Binary.Basic
import Abacus.Number.Digits
import Abacus.Number.Fixed
import Abacus.Text.Integer

/-! Binary numbers as decimal text with a given number of significant digits, the precision that a
number of digits needs, and the numbers π and e. -/

namespace Abacus.Binary

def bitsFor (digits : Int) : Nat :=
  max 1 (((digits + 1) * 33219280948873626 * 2 + 10000000000000000) / 20000000000000000).toNat

/-- The leading decimal digits of `n * 2 ^ e`, cut off, and the exponent of the first of them;
at least `count` digits if the number has that many. -/
def leadingDigits (n : Nat) (e : Int) (count : Nat) : Nat × Int :=
  let top := e + Number.bitLength n
  if top.natAbs ≤ 4000 then
    -- scale by an exact power of ten
    let s := count - top * 30103 / 100000 + 1
    let scaled :=
      if 0 ≤ s then
        let t := n * Number.tenPow s.toNat
        if 0 ≤ e then t <<< e.toNat else t >>> (-e).toNat
      else
        let t := if 0 ≤ e then n <<< e.toNat else n >>> (-e).toNat
        t / Number.tenPow (-s).toNat
    (scaled, Number.digitCount scaled - 1 - s)
  else
    -- scale by a power of ten taken from the logarithm
    let w := count * 4 + 64 + 2 * Number.bitLength top.natAbs
    let b := Number.bitLength n - 1
    let m : Int := ((if b ≤ w then n <<< (w - b) else n >>> (b - w) : Nat) : Int)
    let ln2 := Number.ln2Fixed w
    let ln10 := Number.ln10Fixed w
    let l := Number.lnFixed w m + (e + b) * ln2
    let q := l / ln10
    let x := Number.expFixed w (l - q * ln10)
    let scaled := (Number.shiftDown (x * Number.tenPow count) w).toNat
    (scaled, q + Number.digitCount scaled - 1 - count)

/-- Rounds a number with decimal digits to its first `count` digits, half to even; the flag tells
that a digit was carried out at the front. -/
def roundDigits (n count : Nat) : Nat × Bool :=
  let digits := Number.digitCount n
  if digits ≤ count then (n * Number.tenPow (count - digits), false)
  else
    let r := Number.divRound .halfEven false n (Number.tenPow (digits - count))
    if Number.digitCount r = count then (r, false) else (r / 10, true)

/-- A digit string with a point after its first `split` digits and no zeros at the end but one
after the point. -/
def pointed (ds : List Char) (split : Nat) : List Char :=
  let fraction := ((ds.drop split).reverse.dropWhile (· = '0')).reverse
  ds.take split ++ '.' :: (if fraction = [] then ['0'] else fraction)

/-- Lays digits out: in full if the exponent is below `digits` and not far below zero, else with the
exponent unless it is zero. -/
def laidOut (digits : Int) (sign ds : List Char) (exponent : Int) : String :=
  if min (-(digits / 3)) (-5) < exponent ∧ exponent < digits then
    let body :=
      if exponent < 0 then
        pointed (List.replicate (-exponent).toNat '0' ++ ds) 1
      else pointed ds (exponent.toNat + 1)
    String.ofList (sign ++ body)
  else
    let mark := if 0 ≤ exponent then "e+" else "e"
    String.ofList (sign ++ pointed ds 1) ++ if exponent = 0 then "" else mark ++ toString exponent

/-- The text of a number with `digits` significant digits. -/
def text (digits : Nat) : Binary → String
  | .nan => "nan"
  | .infinite s => if s then "-inf" else "+inf"
  | .finite m e =>
    if m = 0 then "0.0"
    else
      let (n, exponent) := leadingDigits m.natAbs e (digits + 10)
      let cut := Number.digitCount n - (digits + 10)
      let (n, carried) := roundDigits (n / Number.tenPow cut) digits
      laidOut digits (if m < 0 then ['-'] else []) (Text.digitsOf n)
        (if carried then exponent + 1 else exponent)

/-- The decimal digits of `n * 2 ^ e` that are worked out if few are asked for, those before the
point at least, and the exponent of the first of them. -/
def fewDigits (n : Nat) (e : Int) (count : Int) : Nat × Int :=
  let bits := (count * 33219280948873626).tdiv 10000000000000000 + 10
  let fixed := (bits - (e + Number.bitLength n)).toNat
  let places := (fixed * 20000000000000000 + 33219280948873626) / 66438561897747252
  let shift := e + fixed
  let part := if 0 ≤ shift then n <<< shift.toNat else n >>> (-shift).toNat
  let scaled := (part * Number.tenPow places) >>> fixed
  (scaled, Number.digitCount scaled - 1 - places)

/-- The text of a number with no significant digits, or with `dropped` digits dropped at its end. A
number that has not so many digits has no text. -/
def textWithout? (dropped : Nat) : Binary → Option String
  | .nan => some "nan"
  | .infinite s => some (if s then "-inf" else "+inf")
  | .finite m e =>
    let digits : Int := -dropped
    if m = 0 then some (if dropped = 0 then ".0" else "0.0")
    else
      let (n, exponent) := fewDigits m.natAbs e (digits + 10)
      let ds := Text.digitsOf n
      let sign := if m < 0 then ['-'] else []
      let kept := ds.length - dropped
      if dropped = 0 then
        let exponent := if ds.head?.any ('5' ≤ ·) then exponent + 1 else exponent
        let mark := if 0 ≤ exponent then "e+" else "e"
        some (String.ofList (sign ++ ['.', '0']) ++ mark ++ toString exponent)
      else if ds.length < dropped then none
      else if (ds.drop kept).head?.any ('5' ≤ ·) then
        some (laidOut digits sign ['1'] (exponent + 1))
      else some (laidOut digits sign (ds.take kept) exponent)

/-- The text of a number with a number of significant digits that need not be positive. -/
def text? (digits : Int) (x : Binary) : Option String :=
  if 0 < digits then some (x.text digits.toNat) else x.textWithout? (-digits).toNat

def pi (p : Precision) : Binary :=
  let k := p.bits + 40
  round p (Number.piFixed k) (-k)

def euler (p : Precision) : Binary :=
  let k := p.bits + 40
  round p (Number.expFixed k (Number.shiftUp 1 k)) (-k)

/-- A constant with a number of significant decimal digits. -/
def constantText? (constant : Precision → Binary) (digits : Int) : Option String :=
  (constant (.nearest (bitsFor (digits + 5)))).text? digits

end Abacus.Binary
