import Abacus.Number.Digits

/-! Integer roots, digit by digit and by Newton's iteration. -/

namespace Abacus.Number

/-- The number of binary digits of `n`; zero has none. -/
def bitLength (n : Nat) : Nat :=
  if n = 0 then 0 else n.log2 + 1

/-- Decides the lowest `k` binary digits of the root, those above being `r`. -/
def rootBits (n value : Nat) : Nat → Nat → Nat
  | 0, r => r
  | k + 1, r =>
    let s := r + twoPow k
    rootBits n value k (if Nat.pow s n ≤ value then s else r)

/-- The floor of the `n`-th root. -/
def integerRoot (value n : Nat) : Nat :=
  rootBits n value ((bitLength value + n - 1) / n) 0

/-- The whole quotient; there is none by zero. -/
def quotient? (a b : Nat) : Option Nat :=
  if b = 0 then none else some (a / b)

/-- One step of Newton's iteration towards the `n`-th root. -/
def newtonStep? (value n x : Nat) : Option Nat := do
  let q ← quotient? value (Nat.pow x (n - 1))
  quotient? ((n - 1) * x + q) n

/-- Newton's iteration from `x` on, as long as it goes down. -/
def newtonFrom? (value n x : Nat) : Option Nat :=
  match newtonStep? value n x with
  | none => none
  | some y => if y < x then newtonFrom? value n y else some x
termination_by x

/-- The floor of the `n`-th root by Newton's iteration, which starts at a power of two above it.
There is none if it divides by zero on the way. -/
def newtonRoot? (value n : Nat) : Option Nat :=
  if value < 2 then some value
  else (quotient? (bitLength value + n - 1) n).bind (fun k => newtonFrom? value n (twoPow k))

/-- The natural number whose `n`-th power is `value`, if there is one. -/
def exactRootNat? (value n : Nat) : Option Nat :=
  (newtonRoot? value n).bind (fun r => if Nat.pow r n = value then some r else none)

/-- The integer whose `n`-th power is `value`, if there is one; the one that is not negative if
there are two. -/
def exactRoot? (value : Int) (n : Nat) : Option Int :=
  if value < 0 then
    if n % 2 = 0 then none else (exactRootNat? value.natAbs n).map (fun r => -(r : Int))
  else (exactRootNat? value.natAbs n).map (fun r => (r : Int))

end Abacus.Number
