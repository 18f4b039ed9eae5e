/-! Blanks, digits and integers in texts. Blanks around an integer are ignored, a sign may come first,
and an underscore may stand between two digits. Digits of every script count: each block of ten
consecutive code points starts with the digit zero of one script. -/

namespace Abacus.Text

/-- The blanks of Unicode, with the four information separators and the next-line control. -/
def isBlank (c : Char) : Bool :=
  let n := c.toNat
  (9 ≤ n && n ≤ 13) || (28 ≤ n && n ≤ 32) || n == 0x85 || n == 0xa0 || n == 0x1680 ||
    (0x2000 ≤ n && n ≤ 0x200a) || n == 0x2028 || n == 0x2029 || n == 0x202f ||
    n == 0x205f || n == 0x3000

def trimLeft (cs : List Char) : List Char :=
  cs.dropWhile isBlank

def trimRight (cs : List Char) : List Char :=
  (cs.reverse.dropWhile isBlank).reverse

def trim (cs : List Char) : List Char :=
  trimRight (trimLeft cs)

def trimmed (s : String) : String :=
  String.ofList (trim s.toList)

def digitZeros : List Nat :=
  [48, 1632, 1776, 1984, 2406, 2534, 2662, 2790, 2918, 3046, 3174, 3302,
   3430, 3558, 3664, 3792, 3872, 4160, 4240, 6112, 6160, 6470, 6608, 6784,
   6800, 6992, 7088, 7232, 7248, 42528, 43216, 43264, 43472, 43504, 43600, 44016,
   65296, 66720, 68912, 69734, 69872, 69942, 70096, 70384, 70736, 70864, 71248, 71360,
   71472, 71904, 72016, 72784, 73040, 73120, 92768, 92864, 93008, 120782, 120792, 120802,
   120812, 120822, 123200, 123632, 125264, 130032]

def digitValue? (c : Char) : Option Nat :=
  if c.isDigit then some (c.toNat - 48)
  else (digitZeros.find? (fun z => z ≤ c.toNat && c.toNat < z + 10)).map (c.toNat - ·)

/-- Digits of every script become the digits `0` to `9`; other characters stay. -/
def plainDigit (c : Char) : Char :=
  match digitValue? c with
  | some d => Char.ofNat (48 + d)
  | none => c

/-- The number that a run of the digits `0` to `9` spells. -/
def natOfDigits (cs : List Char) : Nat :=
  cs.foldl (fun n c => 10 * n + (c.toNat - 48)) 0

def digitsOf (n : Nat) : List Char :=
  Nat.toDigits 10 n

/-- The value of a digit or letter in a base of up to sixteen. -/
def digitInBase? (base : Nat) (c : Char) : Option Nat :=
  let d := match digitValue? c with
    | some d => d
    | none =>
      if 'a' ≤ c ∧ c ≤ 'f' then c.toNat - 87
      else if 'A' ≤ c ∧ c ≤ 'F' then c.toNat - 55
      else base
  if d < base then some d else none

/-- Goes on with `n` after a digit. -/
def natAfterDigit? (base : Nat) : Nat → List Char → Option Nat
  | n, [] => some n
  | n, '_' :: c :: rest =>
    match digitInBase? base c with
    | some d => natAfterDigit? base (base * n + d) rest
    | none => none
  | n, c :: rest =>
    match digitInBase? base c with
    | some d => natAfterDigit? base (base * n + d) rest
    | none => none

def nat? (base : Nat) : List Char → Option Nat
  | [] => none
  | c :: rest =>
    match digitInBase? base c with
    | some d => natAfterDigit? base d rest
    | none => none

def signAndRest : List Char → Bool × List Char
  | '-' :: rest => (true, rest)
  | '+' :: rest => (false, rest)
  | rest => (false, rest)

def int? (base : Nat) (cs : List Char) : Option Int :=
  let (negative, body) := signAndRest (trim cs)
  (nat? base body).map (fun n => if negative then -(n : Int) else n)

/-- The parts of a text between the places where `mark` stands. -/
def splitAt (mark : Char) : List Char → List (List Char)
  | [] => [[]]
  | c :: cs =>
    if c = mark then [] :: splitAt mark cs
    else match splitAt mark cs with
      | [] => [[c]]
      | part :: rest => (c :: part) :: rest

end Abacus.Text
