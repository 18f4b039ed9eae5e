import Abacus.Proofs.Exact.Digits
import Abacus.System.Decimal

/-! Operations on decimal numbers with a precision have no more digits than it says, whatever their
operands. -/

namespace Abacus

open Number

namespace Number

theorem divRound_le (mode : Rounding) (s : Bool) (n d : Nat) : divRound mode s n d ≤ n / d + 1 := by
  unfold divRound
  dsimp only
  split
  · omega
  · split <;> omega

/-- Rounding up can carry into one more digit than are left. -/
theorem dropDigits_le (mode : Rounding) (s : Bool) {n k p : Nat} (h : digitCount n ≤ p + k) :
    dropDigits mode s n k ≤ 10 ^ p := by
  rw [dropDigits_eq]
  have hn : n < 10 ^ p * 10 ^ k := by
    rw [← pow_add]
    exact lt_of_lt_of_le (lt_tenPow_digitCount n) (Nat.pow_le_pow_right (by decide) h)
  have hdiv : n / 10 ^ k < 10 ^ p := Nat.div_lt_of_lt_mul (by rwa [mul_comm])
  exact (divRound_le mode s n (10 ^ k)).trans hdiv

end Number

namespace Decimal

/-- A number with at most `p` digits, unless it is not finite. -/
inductive Within (p : Nat) : Decimal → Prop
  | finite {c : Nat} (h : digitCount c ≤ p) (s : Bool) (e : Int) : Within p (.finite s c e)
  | infinite (s : Bool) : Within p (.infinite s)
  | nan : Within p .nan

theorem Within.digits {p c : Nat} {s : Bool} {e : Int} (h : Within p (.finite s c e)) :
    digitCount c ≤ p := by
  cases h
  assumption

theorem Within.finite_zero {p : Nat} (hp : 0 < p) (s : Bool) (e : Int) :
    Within p (.finite s 0 e) :=
  .finite ((digitCount_le_iff hp).mpr (Nat.pow_pos (by decide))) s e

theorem Within.finite_one {p : Nat} (hp : 0 < p) (s : Bool) (e : Int) :
    Within p (.finite s 1 e) :=
  .finite ((digitCount_le_iff hp).mpr (Nat.one_lt_pow (by omega) (by decide))) s e

theorem bounded_within {p c : Nat} (h : digitCount c ≤ p) (s : Bool) (e : Int) :
    Within p (bounded s c e) := by
  unfold bounded
  split
  · exact .infinite s
  · exact .finite h s e

section Operations

variable {p : Nat} (hp : 0 < p)

include hp

theorem rounded_within (s : Bool) (c : Nat) (e : Int) : Within p (rounded p s c e) := by
  unfold rounded
  split
  · exact .finite_zero hp _ _
  · dsimp only
    generalize hdrop : (max ((digitCount c : Int) - p) (tiniest p - e)).toNat = drop
    generalize hkept : (if drop = 0 then c else dropDigits .halfEven s c drop) = kept
    split
    · next hmany =>
      -- one digit too many is a power of ten that rounding up has made
      have hle : kept ≤ 10 ^ p := by
        split at hkept
        · subst hkept
          omega
        · exact hkept ▸ dropDigits_le _ s (by omega)
      refine bounded_within ((digitCount_le_iff hp).mpr ?_) _ _
      refine lt_of_le_of_lt (Nat.div_le_div_right hle) ?_
      exact Nat.div_lt_self (Nat.pow_pos (by decide)) (by decide)
    · next hfew => exact bounded_within (not_lt.mp hfew) _ _

theorem round_within (x : Decimal) : Within p (x.round p) := by
  cases x with
  | finite s c e => exact rounded_within hp s c e
  | infinite s => constructor
  | nan => constructor

theorem plus_within (x : Decimal) : Within p (plus p x) := by
  unfold plus
  split <;> exact round_within hp _

theorem minus_within (x : Decimal) : Within p (minus p x) := by
  unfold minus
  split <;> exact round_within hp _

theorem addAligned_within (s : Bool) (c : Nat) (t : Bool) (d : Nat) (e : Int) :
    Within p (addAligned p s c t d e) := by
  unfold addAligned
  dsimp only
  split <;> exact rounded_within hp _ _ _

theorem addScaled_within (s : Bool) (c : Nat) (e : Int) (t : Bool) (d : Nat) (f : Int) :
    Within p (addScaled p s c e t d f) := by
  unfold addScaled
  split
  · exact addAligned_within hp _ _ _ _ _
  · extract_lets digits floor
    split <;> exact addAligned_within hp _ _ _ _ _

theorem add_within (x y : Decimal) : Within p (add p x y) := by
  unfold add
  split
  case h_6 =>
    split <;> exact addScaled_within hp _ _ _ _ _ _
  case h_3 =>
    split <;> constructor
  all_goals constructor

theorem multiply_within (x y : Decimal) : Within p (multiply p x y) := by
  unfold multiply
  split
  case h_6 => exact rounded_within hp _ _ _
  case h_4 => split <;> constructor
  case h_5 => split <;> constructor
  all_goals constructor

theorem roundedSticky_within (s : Bool) (c : Nat) (e : Int) (extra : Nat) (inexact : Bool) :
    Within p (roundedSticky p s c e extra inexact) := by
  unfold roundedSticky
  split <;> exact rounded_within hp _ _ _

theorem divideFinite_within (s : Bool) (c : Nat) (e : Int) (t : Bool) (d : Nat) (f : Int) :
    Within p (divideFinite p s c e t d f) := by
  unfold divideFinite
  split
  · exact rounded_within hp _ _ _
  · exact roundedSticky_within hp _ _ _ _ _

theorem divide_within (x y : Decimal) : Within p (divide p x y) := by
  unfold divide
  split
  case h_5 => exact .finite_zero hp _ _
  case h_6 =>
    split
    · split <;> constructor
    · exact divideFinite_within hp _ _ _ _ _ _
  all_goals constructor

theorem remainderFinite_within (s : Bool) (c : Nat) (e : Int) (d : Nat) (f : Int) :
    Within p (remainderFinite p s c e d f) := by
  unfold remainderFinite
  dsimp only
  repeat' split
  all_goals first | exact rounded_within hp _ _ _ | constructor

theorem remainder_within (x y : Decimal) : Within p (remainder p x y) := by
  unfold remainder
  split
  case h_4 => exact rounded_within hp _ _ _
  case h_5 =>
    split
    · constructor
    · exact remainderFinite_within hp _ _ _ _ _
  all_goals constructor

theorem scaled_within (shift : Int) {x : Decimal} : Within p (scaled p shift x) := by
  cases x with
  | finite s c e => exact rounded_within hp s c _
  | infinite s => constructor
  | nan => constructor

theorem sqrt_within (x : Decimal) : Within p (sqrt p x) := by
  unfold sqrt
  split
  case h_3 =>
    split
    · exact rounded_within hp _ _ _
    · split
      · constructor
      · exact roundedSticky_within hp _ _ _ _ _
  case h_2 => split <;> constructor
  all_goals constructor

theorem settle_within (estimate : Nat → Int × Int) (fuel k : Nat) :
    Within p (settle p estimate fuel k) := by
  induction fuel generalizing k with
  | zero => constructor
  | succ fuel ih =>
    unfold settle
    dsimp only
    split
    · next x hx =>
      unfold settled? at hx
      dsimp only at hx
      split at hx
      · cases hx
        exact roundedSticky_within hp _ _ _ _ _
      · cases hx
    · exact ih _

theorem exp_within (x : Decimal) : Within p (exp p x) := by
  unfold exp
  split
  case h_2 =>
    split
    · exact .finite_zero hp _ _
    · constructor
  case h_3 =>
    split
    · exact .finite_one hp _ _
    · split
      · split
        · exact .finite_zero hp _ _
        · constructor
      · exact settle_within hp _ _ _
  all_goals constructor

theorem ln_within (x : Decimal) : Within p (ln p x) := by
  unfold ln
  split
  case h_2 => split <;> constructor
  case h_3 =>
    repeat' split
    · constructor
    · constructor
    · exact .finite_zero hp _ _
    · exact settle_within hp _ _ _
  all_goals constructor

theorem log10_within (x : Decimal) : Within p (log10 p x) := by
  unfold log10
  split
  case h_2 => split <;> constructor
  case h_3 =>
    repeat' split
    · constructor
    · constructor
    · exact round_within hp _
    · exact settle_within hp _ _ _
  all_goals constructor

theorem powerFinite_within (x y : Decimal) (negative : Bool) :
    Within p (powerFinite p x y negative) := by
  unfold powerFinite
  split
  · constructor
  · exact .finite_zero hp _ _
  · split <;> exact round_within hp _

theorem powerOf_within (x y : Decimal) : Within p (powerOf p x y) := by
  unfold powerOf
  split
  · exact .finite_one hp _ _
  · unfold power
    dsimp only
    repeat' split
    all_goals first
      | exact .finite_zero hp _ _
      | exact .finite_one hp _ _
      | exact powerFinite_within hp _ _ _
      | constructor

theorem ofBinary_within (x : Binary) {v : Decimal} (h : ofBinary p x = .ok v) : Within p v := by
  unfold ofBinary at h
  split at h
  · cases h
    exact .nan
  · cases h
    exact .infinite _
  · next m e =>
    cases hread : (ofText (Binary.text (p + guardDigits) (.finite m e))).mapError
      Bignumber.failureOf with
    | error f =>
      rw [hread] at h
      cases h
    | ok y =>
      rw [hread] at h
      cases h
      exact plus_within hp y

theorem cubeRoot_within (x : Decimal) {v : Decimal} (h : cubeRoot p x = .ok v) : Within p v := by
  unfold cubeRoot at h
  split at h
  · cases hroot : lifted p Binary.cbrt (x.minus p) with
    | error f =>
      rw [hroot] at h
      cases h
    | ok y =>
      rw [hroot] at h
      cases h
      exact minus_within hp y
  · exact ofBinary_within hp _ h

theorem hypot_within (xs : List Decimal) : Within p (hypot p xs) :=
  sqrt_within hp _

end Operations

/-- Rounding to an integer gives no more digits than there were. -/
theorem toIntegral_within {n : Nat} (mode : Rounding) {x : Decimal} (h : Within n x) :
    Within n (x.toIntegral mode) := by
  cases h with
  | infinite s => exact .infinite s
  | nan => exact .nan
  | @finite c h s e =>
    dsimp only [toIntegral]
    split
    · exact .finite h s e
    · have hn : 0 < n := lt_of_lt_of_le (digitCount_pos c) h
      have hdrop := dropDigits_le mode s (p := n - (-e).toNat) (k := (-e).toNat) (h.trans (by omega))
      refine .finite ((digitCount_le_iff hn).mpr (lt_of_le_of_lt hdrop ?_)) s 0
      exact Nat.pow_lt_pow_right (by decide) (by omega)

end Decimal

end Abacus
