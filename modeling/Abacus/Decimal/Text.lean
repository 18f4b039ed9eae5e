import Abacus.Decimal.Basic
import Abacus.Text.Integer

/-! Decimal numbers as text, read and written. -/

namespace Abacus.Decimal

/-- Why a text is no decimal number: it is not written like one, or its exponent is too large or
too small. -/
inductive TextError where
  | malformed
  | outOfRange
  deriving DecidableEq

def splitSign : List Char → Bool × List Char
  | '-' :: rest => (true, rest)
  | '+' :: rest => (false, rest)
  | rest => (false, rest)

/-- The characters that count: blanks around the text and all underscores are dropped, and digits
of every script are digits. -/
def plain (cs : List Char) : List Char :=
  ((Text.trim cs).filter (· ≠ '_')).map Text.plainDigit

def exponent? : List Char → Option Int
  | [] => some 0
  | c :: rest =>
    if c = 'e' ∨ c = 'E' then
      let (negative, ds) := splitSign rest
      if ds ≠ [] ∧ ds.all Char.isDigit then some (signed negative (Text.natOfDigits ds)) else none
    else none

/-- A finite number that fits the largest precision without rounding. -/
def checked (negative : Bool) (c : Nat) (e : Int) : Except TextError Decimal :=
  let top := if c = 0 then e else leading c e
  if tiniest limit ≤ e ∧ top ≤ limit then .ok (.finite negative c e) else .error .outOfRange

/-- Digits with or without a point, then an exponent if there is one. -/
def readNumeral (negative : Bool) (cs : List Char) : Except TextError Decimal :=
  let whole := cs.takeWhile Char.isDigit
  let rest := cs.dropWhile Char.isDigit
  let (fraction, rest) := match rest with
    | '.' :: rest => (rest.takeWhile Char.isDigit, rest.dropWhile Char.isDigit)
    | rest => ([], rest)
  if whole ++ fraction = [] then .error .malformed
  else match exponent? rest with
    | none => .error .malformed
    | some e =>
      checked negative (Text.natOfDigits (whole ++ fraction)) (e - fraction.length)

def afterWord? (word : String) (cs : List Char) : Option (List Char) :=
  let front := cs.take word.length
  if front.map Char.toLower = word.toList then some (cs.drop word.length) else none

/-- The names of the numbers that are not finite; NaN may carry digits. -/
def readName? (negative : Bool) (cs : List Char) : Option Decimal :=
  let word := cs.map Char.toLower
  if word = "inf".toList ∨ word = "infinity".toList then some (.infinite negative)
  else match afterWord? "nan" cs <|> afterWord? "snan" cs with
    | some rest => if rest.all Char.isDigit then some .nan else none
    | none => none

def ofText (s : String) : Except TextError Decimal :=
  let (negative, cs) := splitSign (plain s.toList)
  match readName? negative cs with
  | some x => .ok x
  | none => readNumeral negative cs

def dropTrailingZeros (cs : List Char) : List Char :=
  (cs.reverse.dropWhile (· = '0')).reverse

/-- The magnitude written in full, with no zeros at the end of the fraction. -/
def positional (c : Nat) (e : Int) : List Char :=
  let ds := Text.digitsOf c
  if 0 ≤ e then ds ++ List.replicate e.toNat '0'
  else
    let places := (-e).toNat
    let ds := List.replicate (places + 1 - ds.length) '0' ++ ds
    let whole := ds.take (ds.length - places)
    let fraction := dropTrailingZeros (ds.drop (ds.length - places))
    if fraction = [] then whole else whole ++ '.' :: fraction

/-- One digit before the point, and the exponent of that digit. -/
def scientific (c : Nat) (e : Int) : List Char :=
  let ds := Text.digitsOf c
  let top := leading c e
  let fraction := dropTrailingZeros (ds.drop 1)
  let mark := if 0 < top then ['e', '+'] else ['e']
  ds.take 1 ++ (if fraction = [] then [] else '.' :: fraction) ++ mark ++ (toString top).toList

/-- Numbers from `1e-7` up to but not including `1e21` are written in full, others with an
exponent. -/
def chars : Decimal → List Char
  | .nan => "NaN".toList
  | .infinite s => (if s then "-Infinity" else "Infinity").toList
  | .finite s c e =>
    let top := leading c e
    let body := if c = 0 then ['0']
      else if -7 ≤ top ∧ top < 21 then positional c e
      else scientific c e
    if s then '-' :: body else body

def text (x : Decimal) : String :=
  String.ofList x.chars

end Abacus.Decimal
