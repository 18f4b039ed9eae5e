import Abacus.Number.Root
import Abacus.Proofs.Exact.Agreement
import Mathlib.Analysis.SpecialFunctions.Pow.NthRootLemmas

/-! Newton's iteration for integer roots. It starts above the root and no step leads below the floor
of the root, by the inequality of the arithmetic and the geometric mean, so it never comes to zero;
where a step no longer leads down the floor is found. -/

namespace Abacus.Number

variable {value n x : Nat}

/-- What a step comes to when nothing is divided by zero. -/
def newtonStep (value n x : Nat) : Nat :=
  ((n - 1) * x + value / x ^ (n - 1)) / n

theorem quotient?_of_pos {a b : Nat} (hb : 0 < b) : quotient? a b = some (a / b) :=
  if_neg hb.ne'

theorem newtonStep?_eq (hn : 0 < n) (hx : 0 < x) :
    newtonStep? value n x = some (newtonStep value n x) := by
  have hpower : quotient? value (Nat.pow x (n - 1)) = some (value / x ^ (n - 1)) :=
    quotient?_of_pos (Nat.pow_pos hx)
  rw [newtonStep?, hpower]
  exact quotient?_of_pos hn

/-- A step stays above the floor of the root. -/
theorem lt_newtonStep (hn : 0 < n) (hx : 0 < x) : value < (newtonStep value n x + 1) ^ n := by
  obtain ⟨m, rfl⟩ := Nat.exists_eq_succ_of_ne_zero hn.ne'
  have hmean := Nat.nthRoot.lt_pow_go_succ_aux (a := value) (n := m) hx.ne'
  rwa [Nat.add_comm (value / x ^ m)] at hmean

/-- Where a step does not lead down, the root is not below. -/
theorem pow_le_of_le_newtonStep (hn : 0 < n) (h : x ≤ newtonStep value n x) : x ^ n ≤ value := by
  obtain ⟨m, rfl⟩ := Nat.exists_eq_succ_of_ne_zero hn.ne'
  have hsum : x * (m + 1) ≤ m * x + value / x ^ m :=
    (Nat.le_div_iff_mul_le (Nat.succ_pos m)).mp h
  have hquotient : x ≤ value / x ^ m := by
    rw [Nat.mul_add, Nat.mul_comm x m] at hsum
    omega
  calc x ^ (m + 1) = x * x ^ m := Nat.pow_succ'
    _ ≤ value / x ^ m * x ^ m := Nat.mul_le_mul_right _ hquotient
    _ ≤ value := Nat.div_mul_le_self value _

theorem pos_of_lt_succ_pow (hv : 0 < value) (hx : value < (x + 1) ^ n) : 0 < x := by
  rcases Nat.eq_zero_or_pos x with rfl | hx'
  · simp only [Nat.zero_add, Nat.one_pow] at hx
    omega
  · exact hx'

/-- From above the root the iteration comes to its floor, and divides by zero nowhere. -/
theorem newtonFrom?_bounds (hn : 0 < n) (hv : 0 < value) (hx : value < (x + 1) ^ n) :
    ∃ r, newtonFrom? value n x = some r ∧ r ^ n ≤ value ∧ value < (r + 1) ^ n := by
  fun_induction newtonFrom? value n x with
  | case1 x hstep =>
    rw [newtonStep?_eq hn (pos_of_lt_succ_pow hv hx)] at hstep
    cases hstep
  | case2 x y hstep hdown ih =>
    have hpos := pos_of_lt_succ_pow hv hx
    obtain rfl : newtonStep value n x = y := Option.some.inj (newtonStep?_eq hn hpos ▸ hstep)
    exact ih (lt_newtonStep hn hpos)
  | case3 x y hstep hup =>
    obtain rfl : newtonStep value n x = y :=
      Option.some.inj (newtonStep?_eq hn (pos_of_lt_succ_pow hv hx) ▸ hstep)
    exact ⟨x, rfl, pow_le_of_le_newtonStep hn (Nat.le_of_not_lt hup), hx⟩

/-- The iteration starts above the root. -/
theorem lt_start_pow (hn : 0 < n) (value : Nat) :
    value < (2 ^ ((bitLength value + n - 1) / n)) ^ n := by
  have henough : bitLength value ≤ (bitLength value + n - 1) / n * n := by
    have hdiv := Nat.lt_div_mul_add hn (a := bitLength value + n - 1)
    omega
  calc value < 2 ^ bitLength value := Decimal.lt_two_pow_bitLength value
    _ ≤ 2 ^ ((bitLength value + n - 1) / n * n) := Nat.pow_le_pow_right (by decide) henough
    _ = (2 ^ ((bitLength value + n - 1) / n)) ^ n := Nat.pow_mul ..

/-- The iteration finds the floor of every root. -/
theorem newtonRoot?_bounds (hn : 0 < n) (value : Nat) :
    ∃ r, newtonRoot? value n = some r ∧ r ^ n ≤ value ∧ value < (r + 1) ^ n := by
  rw [newtonRoot?]
  split
  · next hsmall =>
    have hone : value = 0 ∨ value = 1 := by omega
    rcases hone with rfl | rfl
    · exact ⟨0, rfl, by simp [hn.ne'], by simp⟩
    · exact ⟨1, rfl, by simp, Nat.one_lt_two_pow hn.ne'⟩
  · next hlarge =>
    rw [quotient?_of_pos hn, Option.bind_some]
    refine newtonFrom?_bounds hn (by omega) (Nat.lt_of_lt_of_le (lt_start_pow hn value) ?_)
    exact Nat.pow_le_pow_left (Nat.le_succ _) n

end Abacus.Number
