import Abacus.Binary.Read
import Abacus.Binary.Text
import Abacus.Complex.Basic
import Abacus.Decimal.Text
import Abacus.System.Basic

/-! Complex numbers as text, read and written. A real number is read with the full precision; the
parts of a number with an imaginary part have 53 bits and the range of a double. -/

namespace Abacus.Complex

open Binary (Precision)

/-- Why a text is no complex number: it is not written like one, it is a fraction over zero, or an
underscore does not stand between digits. -/
inductive TextError where
  | malformed
  | zeroDenominator
  | underscore (text : String)
  deriving DecidableEq

/-- The double nearest to `c * 10 ^ e`: at most 53 bits, none below `2 ^ (-1074)`, and infinite from
`2 ^ 1024` on. -/
def double (negative : Bool) (c : Nat) (e : Int) : Binary :=
  let top := Decimal.leading c e
  if c = 0 ∨ top < -400 then .zero
  else if 400 < top then .infinite negative
  else
    let n := Decimal.signed negative c
    let x := Binary.ofScaled (.nearest 53) n e
    let bits := x.mag + 1074
    if 1024 < x.mag then .infinite negative
    else if 53 ≤ bits then x
    else
      let units := Number.divRound .halfEven false
        (c * Number.twoPow 1074 * Number.tenPow e.toNat) (Number.tenPow (-e).toNat)
      .normal (Decimal.signed negative units) (-1074)

def leadingDouble? (cs : List Char) : Option (Binary × List Char) :=
  let (negative, body) := Text.signAndRest cs
  match Decimal.afterWord? "nan" body with
  | some rest => some (.nan, rest)
  | none =>
    let whole := body.takeWhile Char.isDigit
    let rest := body.dropWhile Char.isDigit
    let (fraction, rest) := match rest with
      | '.' :: after => (after.takeWhile Char.isDigit, after.dropWhile Char.isDigit)
      | rest => ([], rest)
    if whole ++ fraction = [] then none
    else
      let (e, rest) : Int × List Char := match rest with
        | c :: after =>
          let (down, ds) := Text.signAndRest after
          if (c = 'e' ∨ c = 'E') ∧ ds.head?.any Char.isDigit then
            (Decimal.signed down (Text.natOfDigits (ds.takeWhile Char.isDigit)),
              ds.dropWhile Char.isDigit)
          else (0, rest)
        | [] => (0, rest)
      some (double negative (Text.natOfDigits (whole ++ fraction)) (e - fraction.length), rest)

def isMark (c : Char) : Bool := c = 'j' || c = 'J'

/-- The rest of a text after the mark of an imaginary part. -/
def afterMark? : List Char → Option (List Char)
  | c :: rest => if isMark c then some rest else none
  | [] => none

/-- One or minus one by the sign that a text starts with. -/
def signOnly : List Char → Binary × List Char
  | '-' :: rest => (Binary.one.neg, rest)
  | '+' :: rest => (.one, rest)
  | rest => (.one, rest)

def startsSigned (cs : List Char) : Bool :=
  cs.head?.any (fun c => c = '+' || c = '-')

/-- Reads both parts; what is left is returned with them. -/
def readParts? (cs : List Char) : Option (Complex × List Char) :=
  match leadingDouble? cs with
  | none =>
    let (y, rest) := signOnly cs
    (afterMark? rest).map (fun rest => (⟨.zero, y⟩, rest))
  | some (x, rest) =>
    if startsSigned rest then
      let (y, rest) := (leadingDouble? rest).getD (signOnly rest)
      (afterMark? rest).map (fun rest => (⟨x, y⟩, rest))
    else match afterMark? rest with
      | some rest => some (⟨.zero, x⟩, rest)
      | none => some (ofReal x, rest)

def isSpace (c : Char) : Bool :=
  c = ' ' || (9 ≤ c.toNat && c.toNat ≤ 13)

/-- Reads the parts, with brackets around them or without. -/
def readBracketed? (cs : List Char) : Option Complex :=
  match cs.dropWhile isSpace with
  | '(' :: rest =>
    match readParts? (rest.dropWhile isSpace) with
    | some (z, rest) =>
      match rest.dropWhile isSpace with
      | ')' :: rest => if rest.all isSpace then some z else none
      | _ => none
    | none => none
  | cs =>
    match readParts? cs with
    | some (z, rest) => if rest.all isSpace then some z else none
    | none => none

/-- Digits of every script become plain ones and blanks beyond ASCII spaces; any other character
beyond ASCII ends the text with a mark that no number has. -/
def plainChars : List Char → List Char
  | [] => []
  | c :: rest =>
    if c.toNat < 127 then c :: plainChars rest
    else if Text.isBlank c then ' ' :: plainChars rest
    else match Text.digitValue? c with
      | some _ => Text.plainDigit c :: plainChars rest
      | none => ['?']

/-- Drops underscores, if each stands between two digits. -/
def withoutUnderscores? : Char → List Char → Option (List Char)
  | before, [] => if before = '_' then none else some []
  | before, c :: rest =>
    if c = '_' then if before.isDigit then withoutUnderscores? c rest else none
    else if before = '_' ∧ ¬ c.isDigit then none
    else (withoutUnderscores? c rest).map (c :: ·)

/-- Reads a number with parts of 53 bits, in which `i` marks the imaginary part. -/
def readDoubles (cs : List Char) : Except TextError Complex :=
  let cs := (cs.filter (· ≠ ' ')).map (fun c => if c = 'i' then 'j' else c)
  match withoutUnderscores? ' ' (plainChars cs) with
  | none => .error (.underscore (String.ofList cs))
  | some cs =>
    match readBracketed? cs with
    | some z => .ok z
    | none => .error .malformed

/-- Reads a real number; what is none, or has more digits than the host converts, is read with parts of
53 bits. -/
def ofText (limit : Option Nat) (p : Precision) (s : String) : Except TextError Complex :=
  let cs := Text.trim s.toList
  match Binary.read limit p cs with
  | .ok x => .ok (ofReal x)
  | .error .zeroDenominator => .error .zeroDenominator
  | .error .malformed => (readDoubles cs).map (pos p)

/-- Refuses a text whose exponent has more digits than the host writes. -/
def checkExponent (limit : Option Nat) (cs : List Char) : Except Failure Unit :=
  match limit with
  | some k =>
    if k < (cs.dropWhile (· ≠ 'e')).countP Char.isDigit then .error (.unwritableInteger k)
    else .ok ()
  | none => .ok ()

/-- A real number with `digits` significant digits; a whole number has no point. -/
def partText (limit : Option Nat) (digits : Int) (x : Binary) : Except Failure String :=
  match x with
  | .nan => .ok "NaN"
  | .infinite s => .ok (if s then "-Infinity" else "Infinity")
  | .finite .. =>
    match x.text? digits with
    | none => .error .noSuchDigit
    | some text => do
      checkExponent limit text.toList
      match text.toList.reverse with
      | '0' :: '.' :: rest => return String.ofList rest.reverse
      | _ => return text

/-- The real part, then the imaginary part with `i`; a part that is zero is left out, and so is an
imaginary part of one before `i`. -/
def text (limit : Option Nat) (p : Precision) (digits : Int) (z : Complex) :
    Except Failure String :=
  if z.im.isZero then partText limit digits z.re
  else do
    let size := z.im.abs.pos p
    let imaginary ← if size = .one then .ok "" else partText limit digits size
    if z.re.isZero then return (if z.im.isNegative then "-" else "") ++ imaginary ++ "i"
    else
      let real ← partText limit digits z.re
      return real ++ (if z.im.isNegative then " - " else " + ") ++ imaginary ++ "i"

end Abacus.Complex
