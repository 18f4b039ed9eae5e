import Abacus.Binary.Text
import Abacus.Decimal.Text
import Abacus.Number.Root
import Abacus.System.Basic

/-! Exact rational numbers. There is no infinity: division by zero fails, and so does a power or a
root that is not rational. The host may limit the decimal digits of the integers that it converts. -/

namespace Abacus.Fraction

/-- Digits with single underscores between them, and the rest. -/
def digitRun : List Char → List Char × List Char
  | [] => ([], [])
  | c :: rest =>
    if c.isDigit then
      let (ds, rest) := digitRun rest
      (c :: ds, rest)
    else if c = '_' ∧ rest.head?.any Char.isDigit then
      match digitRun rest with
      | ([], _) => ([], c :: rest)
      | (ds, rest) => (ds, rest)
    else ([], c :: rest)

def digits (cs : List Char) : List Char × List Char :=
  if cs.head?.any Char.isDigit then digitRun cs else ([], cs)

/-- The sign and the digits of an exponent, if there is one, and the rest. -/
def exponent (cs : List Char) : Bool × List Char × List Char :=
  match cs with
  | c :: rest =>
    if c = 'e' ∨ c = 'E' then
      let (negative, body) := Decimal.splitSign rest
      match digits body with
      | ([], _) => (false, [], cs)
      | (ds, rest) => (negative, ds, rest)
    else (false, [], cs)
  | [] => (false, [], [])

def scale (n : Nat) (e : Int) : Rat :=
  if 0 ≤ e then ((n * Number.tenPow e.toNat : Nat) : Rat)
  else mkRat n (Number.tenPow (-e).toNat)

/-- `n/d` after its sign, or digits with a point and an exponent. -/
def readBody (limit : Option Nat) (text : String) (cs : List Char) : Except Failure Rat :=
  let malformed : Except Failure Rat := .error (.malformedFraction text)
  let (whole, rest) := digits cs
  match whole, rest with
  | _ :: _, '/' :: rest =>
    match digits rest with
    | (_ :: _, _ :: _) => malformed
    | ([], _) => malformed
    | (ds, []) => do
      let n ← readDigits limit whole
      let d ← readDigits limit ds
      if d = 0 then .error (.zeroDenominator n) else return mkRat n d
  | _, _ =>
    let (fraction, rest) := match rest with
      | '.' :: rest => digits rest
      | rest => ([], rest)
    let (negative, ds, rest) := exponent rest
    if whole ++ fraction = [] ∨ rest ≠ [] then malformed
    else do
      let n ← readDigits limit whole
      let m ← readDigits limit fraction
      let e ← readDigits limit ds
      return scale (n * Number.tenPow fraction.length + m)
        (Decimal.signed negative e - fraction.length)

def parse (limit : Option Nat) (text : String) : Except Failure Rat :=
  let cs := (Text.trim text.toList).map Text.plainDigit
  let (negative, body) := Decimal.splitSign cs
  match readBody limit text body with
  | .ok x => .ok (if negative then -x else x)
  | .error (.zeroDenominator n) => .error (.zeroDenominator (if negative then -n else n))
  | .error f => .error f

def format (limit : Option Nat) (x : Rat) : Except Failure String := do
  let n ← integerText limit x.num
  if x.den = 1 then return n
  else
    let d ← integerText limit x.den
    return n ++ "/" ++ d

def divide (x y : Rat) : Except Failure Rat :=
  if y = 0 then .error .divisionByZero else .ok (x / y)

def truncate (x : Rat) : Int :=
  x.num.tdiv x.den

/-- The remainder with the sign of the first number. -/
def remainder (x y : Rat) : Except Failure Rat :=
  if y = 0 then .error .divisionByZero else .ok (x - y * (truncate (x / y) : Rat))

def powerInt (x : Rat) (n : Int) : Rat :=
  let power := mkRat (Int.pow x.num n.natAbs) (Nat.pow x.den n.natAbs)
  if 0 ≤ n then power else power⁻¹

/-- A power with a positive exponent `p / q`: the `q`-th root of the `p`-th power. -/
def powerRoot (x : Rat) (p q : Nat) : Except Failure Rat :=
  match Number.exactRoot? (Int.pow x.num p) q, Number.exactRoot? (Nat.pow x.den p : Int) q with
  | some n, some d => .ok ((n : Rat) / (d : Rat))
  | _, _ => .error .notRational

def power (x y : Rat) : Except Failure Rat :=
  if y.den = 1 then
    if x = 0 ∧ y < 0 then .error .divisionByZero else .ok (powerInt x y.num)
  else if y < 0 then do
    let r ← powerRoot x y.num.natAbs y.den
    divide 1 r
  else powerRoot x y.num.natAbs y.den

def floor (x : Rat) : Int :=
  x.num / x.den

def toInteger (d : Direction) (x : Rat) : Rat :=
  match d with
  | .down => floor x
  | .up => -(floor (-x) : Rat)
  | .nearest =>
    let half := floor ((if x < 0 then -x else x) + 1 / 2)
    if x < 0 then -(half : Rat) else half

def order (x y : Rat) : Ordering :=
  if x < y then .lt else if x = y then .eq else .gt

/-- A number below 1 with `digits` random decimal digits. -/
def random (digits : Int) : EStateM Failure Generator Rat := do
  if digits < 0 then throw (if digits ≤ -324 then .emptyRange else .noRange)
  let scale := Number.tenPow digits.toNat
  let (n, g) := (← get).below scale
  set g
  return mkRat n scale

/-- The greatest rational of which both numbers are integer multiples. -/
def gcd (x y : Rat) : Rat :=
  mkRat (Int.gcd x.num y.num) (Nat.lcm x.den y.den)

/-- The least positive rational that is an integer multiple of both numbers, zero if one of them
is zero. -/
def lcm (x y : Rat) : Rat :=
  if x = 0 ∨ y = 0 then 0 else mkRat (Int.lcm x.num y.num) (Nat.gcd x.den y.den)

def arithmetic (digits : Int) (limit : Option Nat) : Arithmetic Rat where
  zero := 0
  one := 1
  parse := parse limit
  format := format limit
  fromInt := fun n => (n : Rat)
  isZero := fun x => x == 0
  isInteger := fun x => x.den == 1
  toCount := fun x => .ok (floor x)
  add := (· + ·)
  subtract := (· - ·)
  multiply := (· * ·)
  divide := divide
  remainder := remainder
  power := power
  compare := fun x y => .ok (some (order x y))
  equals := fun x y => x == y
  absolute := fun x => if x < 0 then -x else x
  toInteger := toInteger
  sign := Arithmetic.orderedSign (fun x y => .ok (some (order x y))) 0 (fun n => (n : Rat))
  sqrt := fun x => power x (1 / 2)
  cbrt := fun x => power x (1 / 3)
  random := random digits

def constant? (digits : Int) (limit : Option Nat) (value : Binary.Precision → Binary) :
    Except Failure Rat :=
  match Binary.constantText? value digits with
  | none => .error .noSuchDigit
  | some text => parse limit text

def constant (digits : Int) (limit : Option Nat) (value : Binary.Precision → Binary) : Rat :=
  (constant? digits limit value).toOption.getD 0

def constants (digits : Int) (limit : Option Nat) : List (String × Rat) :=
  [("π", constant digits limit Binary.pi), ("e", constant digits limit Binary.euler)]

def system (digits : Int) (limit : Option Nat) : NumberSystem Rat :=
  (arithmetic digits limit).system (constants digits limit)
    [Arithmetic.binary "gcd" (fun x y => .ok (gcd x y)),
      Arithmetic.binary "lcm" (fun x y => .ok (lcm x y)),
      Arithmetic.unary "inverse" (divide 1)]

end Abacus.Fraction
