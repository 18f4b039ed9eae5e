import Abacus.Number.Root

/-! Binary floating-point numbers with exponents of any size and one zero. -/

namespace Abacus

/-- A finite number is `m * 2 ^ e`; its normal form has an odd `m`, or is zero with `e = 0`. -/
inductive Binary where
  | finite (m e : Int)
  | infinite (negative : Bool)
  | nan
  deriving DecidableEq

namespace Binary

/-- The number of zeros at the end of the binary form of a positive number. -/
def trailingZeros (n : Nat) : Nat :=
  (n - (n &&& (n - 1))).log2

/-- The normal form of `m * 2 ^ e`. -/
def normal (m e : Int) : Binary :=
  if m = 0 then .finite 0 0
  else
    let k := trailingZeros m.natAbs
    .finite (m / Number.twoPow k) (e + k)

/-- Where a number goes that has too many bits: to the nearest one, the even one of two, or toward
zero, or away from it. -/
inductive Cut where
  | nearest
  | down
  | up
  deriving DecidableEq

/-- A number of significant bits, and how numbers with more of them are cut. -/
structure Precision where
  bits : Nat
  cut : Cut
  deriving DecidableEq

namespace Precision

def nearest (bits : Nat) : Precision := ⟨bits, .nearest⟩

def down (bits : Nat) : Precision := ⟨bits, .down⟩

/-- The precision of intermediate results, with `k` more bits. -/
def guarded (p : Precision) (k : Nat) : Precision := down (p.bits + k)

/-- As many bits, cut so that a quotient errs on the same side if its divisor is cut so. -/
def reciprocal (p : Precision) : Precision :=
  match p.cut with
  | .nearest => p
  | .down => ⟨p.bits, .up⟩
  | .up => ⟨p.bits, .down⟩

end Precision

/-- A magnitude without its last `k` bits. -/
def dropBits (cut : Cut) (n k : Nat) : Nat :=
  let q := n >>> k
  let r := n - (q <<< k)
  let half := 1 <<< (k - 1)
  if k = 0 then n
  else match cut with
    | .nearest => if half < r ∨ (r = half ∧ q % 2 = 1) then q + 1 else q
    | .down => q
    | .up => if r = 0 then q else q + 1

def signed (negative : Bool) (n : Nat) : Int :=
  if negative then -(n : Int) else n

/-- `m * 2 ^ e` cut to a precision. -/
def round (p : Precision) (m e : Int) : Binary :=
  let n := m.natAbs
  let excess := Number.bitLength n - p.bits
  normal (signed (m < 0) (dropBits p.cut n excess)) (e + excess)

/-- A number of which `n * 2 ^ e` is the part that is known, `inexact` telling that a smaller part
is missing, cut to a precision. The known part has more bits than that if it is inexact. -/
def roundSticky (p : Precision) (negative : Bool) (n : Nat) (e : Int) (inexact : Bool) : Binary :=
  if inexact then round p (signed negative (2 * n + 1)) (e - 1) else round p (signed negative n) e

def zero : Binary := .finite 0 0

def one : Binary := .finite 1 0

def ofInt (n : Int) : Binary :=
  normal n 0

def ofIntRound (p : Precision) (n : Int) : Binary :=
  round p n 0

def isZero : Binary → Bool
  | .finite m _ => m == 0
  | _ => false

def isNaN : Binary → Bool
  | .nan => true
  | _ => false

def isInfinite : Binary → Bool
  | .infinite _ => true
  | _ => false

def isFinite : Binary → Bool
  | .finite .. => true
  | _ => false

def isNegative : Binary → Bool
  | .finite m _ => m < 0
  | .infinite s => s
  | .nan => false

def pos (p : Precision) : Binary → Binary
  | .finite m e => round p m e
  | x => x

def neg : Binary → Binary
  | .finite m e => .finite (-m) e
  | .infinite s => .infinite (!s)
  | .nan => .nan

def abs : Binary → Binary
  | .finite m e => .finite (m.natAbs : Int) e
  | .infinite _ => .infinite false
  | .nan => .nan

/-- The exponent of the bit above the leading one: the magnitude is below `2 ^ mag` and at least
half of that. -/
def mag : Binary → Int
  | .finite m e => e + Number.bitLength m.natAbs
  | _ => 0

def lowest : Binary → Int
  | .finite _ e => e
  | _ => 0

def shift (x : Binary) (k : Int) : Binary :=
  match x with
  | .finite m e => if m = 0 then x else .finite m (e + k)
  | x => x

def addFinite (m e n f : Int) : Binary :=
  if f ≤ e then normal (m * Number.twoPow (e - f).toNat + n) f
  else normal (m + n * Number.twoPow (f - e).toNat) e

/-- The sum of two numbers of which the second is far smaller. -/
def addFar (p : Precision) (m e n : Int) : Binary :=
  let k := p.bits + 4 - Number.bitLength m.natAbs + 4
  round p (m * Number.twoPow k * 2 + n.sign) (e - k - 1)

def add (p : Precision) : Binary → Binary → Binary
  | .nan, _ => .nan
  | _, .nan => .nan
  | .infinite s, .infinite t => if s = t then .infinite s else .nan
  | .infinite s, .finite .. => .infinite s
  | .finite .., .infinite t => .infinite t
  | .finite m e, .finite n f =>
    if m = 0 then round p n f
    else if n = 0 then round p m e
    else
      let gap := e + Number.bitLength m.natAbs - (f + Number.bitLength n.natAbs)
      let far : Int := p.bits + 8
      if far < gap ∧ f + Number.bitLength n.natAbs < e - 8 then addFar p m e n
      else if gap < -far ∧ e + Number.bitLength m.natAbs < f - 8 then addFar p n f m
      else (addFinite m e n f).pos p

def sub (p : Precision) (x y : Binary) : Binary :=
  add p x y.neg

def mulExact : Binary → Binary → Binary
  | .nan, _ => .nan
  | _, .nan => .nan
  | .infinite s, .infinite t => .infinite (s != t)
  | .infinite s, .finite n _ => if n = 0 then .nan else .infinite (s != (n < 0))
  | .finite m _, .infinite t => if m = 0 then .nan else .infinite ((m < 0) != t)
  | .finite m e, .finite n f => if m = 0 ∨ n = 0 then zero else .finite (m * n) (e + f)

def mul (p : Precision) (x y : Binary) : Binary :=
  (mulExact x y).pos p

/-- The quotient. Callers refuse a divisor of zero. -/
def div (p : Precision) : Binary → Binary → Binary
  | .nan, _ => .nan
  | _, .nan => .nan
  | .infinite _, .infinite _ => .nan
  | .infinite s, .finite n _ => .infinite (s != (n < 0))
  | .finite .., .infinite _ => zero
  | .finite m e, .finite n f =>
    if n = 0 then if m = 0 then .nan else .infinite (m < 0)
    else if m = 0 then zero
    else
      let k := p.bits + 4 + Number.bitLength n.natAbs - Number.bitLength m.natAbs
      let a := m.natAbs <<< k
      roundSticky p ((m < 0) != (n < 0)) (a / n.natAbs) (e - f - k) (a % n.natAbs != 0)

def order? : Binary → Binary → Option Ordering
  | .nan, _ => none
  | _, .nan => none
  | .infinite s, .infinite t => some (if s = t then .eq else if s then .lt else .gt)
  | .infinite s, .finite .. => some (if s then .lt else .gt)
  | .finite .., .infinite t => some (if t then .gt else .lt)
  | .finite m e, .finite n f =>
    if m = 0 ∨ n = 0 ∨ (m < 0) ≠ (n < 0) then some (compare m.sign n.sign)
    else
      let a := e + Number.bitLength m.natAbs
      let b := f + Number.bitLength n.natAbs
      if a = b then
        if f ≤ e then some (compare (m * Number.twoPow (e - f).toNat) n)
        else some (compare m (n * Number.twoPow (f - e).toNat))
      else some (if m < 0 then compare b a else compare a b)

def lt (x y : Binary) : Bool :=
  x.order? y == some .lt

def le (x y : Binary) : Bool :=
  (x.order? y).any Ordering.isLE

/-- Equal as numbers; NaN equals nothing. -/
def eq (x y : Binary) : Bool :=
  x.order? y == some .eq

def sqrt (p : Precision) : Binary → Binary
  | .finite m e =>
    if m ≤ 0 then zero
    else
      let odd := (e % 2).toNat
      let n := m.natAbs <<< odd
      let k := p.bits + 4 - Number.bitLength n / 2
      let n := n <<< (2 * k)
      let r := Number.integerRoot n 2
      roundSticky p false r ((e - odd) / 2 - k) (r * r != n)
  | .infinite _ => .infinite false
  | .nan => .nan

def floorInt : Binary → Int
  | .finite m e => if 0 ≤ e then m * Number.twoPow e.toNat else m / Number.twoPow (-e).toNat
  | _ => 0

/-- The floor of the number times `2 ^ k`. -/
def fixed (k : Nat) : Binary → Int
  | .finite m e =>
    let s := e + k
    if 0 ≤ s then m * Number.twoPow s.toNat
    else if s + Number.bitLength m.natAbs < 0 then if m < 0 then -1 else 0
    else m / Number.twoPow (-s).toNat
  | _ => 0

def isInteger : Binary → Bool
  | .finite _ e => 0 ≤ e
  | _ => false

end Binary

end Abacus
