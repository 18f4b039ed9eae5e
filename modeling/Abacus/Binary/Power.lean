import Abacus.Binary.Basic

/-! Integer powers of binary numbers, and numbers given by a power of ten. -/

namespace Abacus.Binary

/-- A magnitude `m * 2 ^ e` of at most `bits` bits, cut up or down. -/
def trimmed (bits : Nat) (up : Bool) (m : Nat) (e : Int) : Nat × Int :=
  let excess := Number.bitLength m - bits
  (dropBits (if up then .up else .down) m excess, e + excess)

/-- Multiplies `pm * 2 ^ pe` by the `n`-th power of `m * 2 ^ e`, squaring again and again; the fuel
bounds the binary digits of `n`. -/
def powerSteps (bits : Nat) (up : Bool) : Nat → Nat → Nat → Int → Nat → Int → Nat × Int
  | 0, _, _, _, pm, pe => (pm, pe)
  | fuel + 1, n, m, e, pm, pe =>
    if n = 0 then (pm, pe)
    else
      let (pm, pe) := if n % 2 = 1 then trimmed bits up (pm * m) (pe + e) else (pm, pe)
      if n = 1 then (pm, pe)
      else
        let (m, e) := trimmed bits up (m * m) (e + e)
        powerSteps bits up fuel (n / 2) m e pm pe

/-- `m * 2 ^ e` to the power of `n`: exact before the last rounding if it is short, else with
guard bits. -/
def powNat (p : Precision) (m e : Int) (n : Nat) : Binary :=
  let negative := m < 0 && n % 2 == 1
  let digits := Number.bitLength m.natAbs
  if m.natAbs ≤ 1 ∨ digits * n < 1000 then
    round p (signed negative (Nat.pow m.natAbs n)) (e * n)
  else
    let bits := p.bits + 4 * Number.bitLength n + 4
    let (pm, pe) := powerSteps bits (p.cut == .up) (Number.bitLength n) n m.natAbs e 1 0
    round p (signed negative pm) pe

def powInt (p : Precision) (x : Binary) (n : Int) : Binary :=
  match x with
  | .nan => .nan
  | .infinite s =>
    if n = 0 then .nan else if n < 0 then zero else .infinite (s && n % 2 = 1)
  | .finite m e =>
    if n < 0 then
      if n = -1 then div p one x
      else div p one (powNat ⟨p.bits + 5, p.reciprocal.cut⟩ m e n.natAbs)
    else if n = 0 then one
    else powNat p m e n.natAbs

/-- The number `m * 10 ^ e`. -/
def ofScaled (p : Precision) (m e : Int) : Binary :=
  if 400 < e.natAbs then
    mul p (ofIntRound (p.guarded 10) m) (powInt (p.guarded 10) (ofInt 10) e)
  else if 0 ≤ e then ofIntRound p (m * Number.tenPow e.toNat)
  else div p (ofInt m) (ofInt (Number.tenPow (-e).toNat))

end Abacus.Binary
