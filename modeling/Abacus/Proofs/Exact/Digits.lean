import Abacus.Number.Digits
import Mathlib.Algebra.Order.Ring.Nat

/-! Decimal digits of natural numbers: how many there are, and what is left if some are dropped. -/

namespace Abacus.Number

variable {n k : Nat}

theorem tenPow_eq (k : Nat) : tenPow k = 10 ^ k := rfl

theorem digitCount_le_iff (hk : 0 < k) : digitCount n ≤ k ↔ n < 10 ^ k := by
  have hdigits := @Nat.length_toDigits_le_iff 10 n k (by decide) hk
  have hexact : ∀ d, 10 ^ d ≤ n → n < 10 ^ (d + 1) → (d + 1 ≤ k ↔ n < 10 ^ k) := by
    intro d hlow hhigh
    constructor
    · intro hd
      exact lt_of_lt_of_le hhigh (Nat.pow_le_pow_right (by decide) hd)
    · intro hn
      exact (Nat.pow_lt_pow_iff_right (by decide)).mp (lt_of_le_of_lt hlow hn)
  unfold digitCount
  dsimp only
  split
  · next h => exact hexact _ h.1 h.2
  · split
    · next h => exact hexact _ h.1 h.2
    · exact hdigits

theorem digitCount_pos (n : Nat) : 0 < digitCount n := by
  unfold digitCount
  dsimp only
  split
  · omega
  · split
    · omega
    · exact Nat.length_toDigits_pos

theorem lt_tenPow_digitCount (n : Nat) : n < 10 ^ digitCount n :=
  (digitCount_le_iff (digitCount_pos n)).mp le_rfl

theorem tenPow_le_of_ne_zero (hn : n ≠ 0) : 10 ^ (digitCount n - 1) ≤ n := by
  by_cases hd : digitCount n = 1
  · rw [hd]
    exact Nat.one_le_iff_ne_zero.mpr hn
  · have hpos := digitCount_pos n
    have hless : ¬ digitCount n ≤ digitCount n - 1 := by omega
    exact not_lt.mp (fun hlt => hless ((digitCount_le_iff (by omega)).mpr hlt))

theorem divRound_of_dvd (mode : Rounding) (negative : Bool) {d : Nat} (h : d ∣ n) :
    divRound mode negative n d = n / d := by
  simp [divRound, Nat.mod_eq_zero_of_dvd h]

/-- A magnitude far below the last digit that is kept is rounded like any other. -/
theorem dropDigits_eq (mode : Rounding) (negative : Bool) (n k : Nat) :
    dropDigits mode negative n k = divRound mode negative n (10 ^ k) := by
  unfold dropDigits
  split
  · next hn => simp [hn, divRound]
  · next hn =>
    split
    · next hk =>
      have hpos := digitCount_pos n
      have hsmall : 10 * n < 10 ^ k := by
        have hn' : n < 10 ^ (k - 1) := (digitCount_le_iff (by omega)).mp (by omega)
        have hk' : 10 ^ k = 10 * 10 ^ (k - 1) := by
          rw [← Nat.pow_succ', Nat.succ_eq_add_one, Nat.sub_add_cancel (by omega)]
        omega
      have hq : n / 10 ^ k = 0 := Nat.div_eq_of_lt (by omega)
      have hr : n % 10 ^ k = n := Nat.mod_eq_of_lt (by omega)
      have hup : mode.up negative 0 1 10 = mode.up negative 0 n (10 ^ k) := by
        have hhalf : ¬ 10 ^ k < 2 * n := by omega
        have hle : ¬ 10 ^ k ≤ 2 * n := by omega
        cases mode <;> simp [Rounding.up, hhalf, hle]
      simp only [divRound, hq, hr, if_neg hn, hup]
    · rfl

theorem dropDigits_of_dvd (mode : Rounding) (negative : Bool) (h : 10 ^ k ∣ n) :
    dropDigits mode negative n k = n / 10 ^ k := by
  rw [dropDigits_eq, divRound_of_dvd mode negative h]

end Abacus.Number
