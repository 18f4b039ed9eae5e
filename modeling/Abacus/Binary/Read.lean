import Abacus.Binary.Power
import Abacus.Text.Integer

/-! Binary numbers read from text: decimals, fractions of integers, and numbers in base two, eight
or sixteen. The host may limit the decimal digits of the integers in them. -/

namespace Abacus.Binary

/-- Why a text is no binary number: it is not written like one, or it is a fraction over zero. -/
inductive TextError where
  | malformed
  | zeroDenominator
  deriving DecidableEq

def named? (s : String) : Option Binary :=
  match s with
  | "inf" | "+inf" | "oo" | "+oo" => some (.infinite false)
  | "-inf" | "-oo" => some (.infinite true)
  | "nan" => some .nan
  | _ => none

def integer? (limit : Option Nat) (base : Nat) (cs : List Char) : Option Int :=
  if base = 10 ∧ limit.any (· < cs.countP (fun c => (Text.digitValue? c).isSome)) then none
  else Text.int? base cs

/-- Digits with or without a point: the integer that they spell and the number of digits after the
point, where zeros at the end do not count. -/
def pointed? (limit : Option Nat) (base : Nat) (cs : List Char) : Option (Int × Nat) :=
  match Text.splitAt '.' cs with
  | [whole] => (integer? limit base whole).map (·, 0)
  | [whole, fraction] =>
    let fraction := (fraction.reverse.dropWhile (· = '0')).reverse
    (integer? limit base (whole ++ fraction)).map (·, fraction.length)
  | _ => none

/-- A number with an exponent after a mark, if there is one. -/
def scaled? (limit : Option Nat) (base : Nat) (mark : Char) (cs : List Char) :
    Option (Int × Nat × Int) := do
  match Text.splitAt mark cs with
  | [body] =>
    let (m, places) ← pointed? limit base body
    return (m, places, 0)
  | [body, exponent] =>
    let (m, places) ← pointed? limit base body
    let e ← integer? limit 10 exponent
    return (m, places, e)
  | _ => none

/-- A base other than ten, the number of bits of its digits, and the rest of the text. -/
def otherBase? (cs : List Char) : Option (Nat × Nat × List Char) :=
  let (negative, body) := Text.signAndRest cs
  let signed (rest : List Char) : List Char := if negative then '-' :: rest else rest
  match body with
  | '0' :: 'x' :: rest => some (16, 4, signed rest)
  | '0' :: 'o' :: rest => some (8, 3, signed rest)
  | '0' :: 'b' :: rest => some (2, 1, signed rest)
  | _ => none

/-- Reads an integer, a decimal, or a number in another base, and rounds it. -/
def readNumeral? (limit : Option Nat) (p : Precision) (cs : List Char) : Option Binary :=
  match otherBase? cs with
  | some (base, width, body) => do
    let (m, places, e) ← scaled? limit base 'p' body
    return round p m (e - width * places)
  | none => do
    let (m, places, e) ← scaled? limit 10 'e' cs
    return ofScaled p m (e - places)

def readQuotient (limit : Option Nat) (p : Precision) (n d : List Char) :
    Except TextError Binary :=
  match integer? limit 10 n, integer? limit 10 d with
  | some n, some d => if d = 0 then .error .zeroDenominator else .ok (div p (ofInt n) (ofInt d))
  | _, _ => .error .malformed

def read (limit : Option Nat) (p : Precision) (cs : List Char) : Except TextError Binary :=
  let cs := (Text.trim cs).map Char.toLower
  match named? (String.ofList cs) with
  | some x => .ok x
  | none =>
    match Text.splitAt '/' cs with
    | [n, d] => readQuotient limit p n d
    | [_] =>
      match readNumeral? limit p cs with
      | some x => .ok x
      | none => .error .malformed
    | _ => .error .malformed

end Abacus.Binary
