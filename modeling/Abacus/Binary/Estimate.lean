import Abacus.Binary.Basic

/-! Numbers known up to an error. A function that can be estimated as closely as one likes is
rounded correctly by estimating it until the error no longer matters. -/

namespace Abacus.Binary

/-- A number that differs from `value * 2 ^ exponent` by `error * 2 ^ exponent` at most. -/
structure Estimate where
  value : Int
  exponent : Int
  error : Nat

/-- The number cut to a precision, if both ends of its range give the same. -/
def Estimate.settled? (p : Precision) (x : Estimate) : Option Binary :=
  let low := round p (x.value - x.error) x.exponent
  let high := round p (x.value + x.error) x.exponent
  if x.error < x.value.natAbs ∧ low = high then some low else none

/-- Takes estimates with more and more places until one settles the result. -/
def settleFrom (p : Precision) (estimate : Nat → Estimate) : Nat → Nat → Binary
  | 0, _ => .nan
  | fuel + 1, k =>
    match (estimate k).settled? p with
    | some x => x
    | none => settleFrom p estimate fuel (2 * k)

/-- The number that the estimates approach, cut to a precision. It must not be one that the
precision can hold or a tie between two of them. -/
def settle (p : Precision) (estimate : Nat → Estimate) : Binary :=
  settleFrom p estimate 30 (p.bits + 32)

/-- A number cut to a precision whose magnitude is larger, or smaller, than that of `x` by less
than any bit that counts. -/
def nudged (p : Precision) (x : Binary) (larger : Bool) : Binary :=
  match x with
  | .finite m e =>
    let k := p.bits + 8
    let step := if larger then m.sign else -m.sign
    round p (m * Number.twoPow k + step) (e - k)
  | x => x

end Abacus.Binary
