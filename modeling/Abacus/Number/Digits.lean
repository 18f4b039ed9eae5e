/-! Powers of two and of ten, and decimal digits: their number, and the number that is left when some
of them are dropped with a given direction of rounding. -/

namespace Abacus.Number

def twoPow (k : Nat) : Nat :=
  Nat.pow 2 k

def tenPow (k : Nat) : Nat :=
  Nat.pow 10 k

/-- A guess for the number of decimal digits, one too low at most for numbers of a sensible size. -/
def digitGuess (n : Nat) : Nat :=
  n.log2 * 30102999566398 / 100000000000000

/-- The number of decimal digits of `n`; zero has one. -/
def digitCount (n : Nat) : Nat :=
  let d := digitGuess n
  if tenPow d ≤ n ∧ n < tenPow (d + 1) then d + 1
  else if tenPow (d + 1) ≤ n ∧ n < tenPow (d + 2) then d + 2
  else (Nat.toDigits 10 n).length

inductive Rounding where
  | halfEven
  | halfUp
  | ceiling
  | floor
  deriving DecidableEq

/-- Whether the magnitude `q + r / d`, with `0 < r < d`, of a number goes up to `q + 1`. -/
def Rounding.up (mode : Rounding) (negative : Bool) (q r d : Nat) : Bool :=
  match mode with
  | .halfEven => d < 2 * r || (2 * r == d && q % 2 == 1)
  | .halfUp => d ≤ 2 * r
  | .ceiling => !negative
  | .floor => negative

/-- The magnitude `n / d` rounded to an integer. -/
def divRound (mode : Rounding) (negative : Bool) (n d : Nat) : Nat :=
  let q := n / d
  let r := n % d
  if r = 0 then q else if mode.up negative q r d then q + 1 else q

/-- Drops the last `k` decimal digits of a magnitude. -/
def dropDigits (mode : Rounding) (negative : Bool) (n k : Nat) : Nat :=
  if n = 0 then 0
  else if digitCount n < k then if mode.up negative 0 1 10 then 1 else 0
  else divRound mode negative n (tenPow k)

end Abacus.Number
