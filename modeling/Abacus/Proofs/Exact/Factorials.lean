import Abacus.Proofs.Exact.Value
import Abacus.System.Bignumber
import Abacus.System.Fraction
import Mathlib.Data.Nat.Factorial.Basic

/-! Factorials are continued from those that were found before. Whatever is known to hold of the
first one and to be passed on by one more factor holds of every factorial that is found, and of
those that are kept for later. -/

namespace Abacus

open Decimal

namespace Arithmetic

variable {α : Type} {holds : Nat → α → Prop}

/-- Every factorial that is kept is as it should be. -/
def Tabulated (holds : Nat → α → Prop) (known : List (Nat × α)) : Prop :=
  ∀ e ∈ known, holds e.1 e.2

theorem Tabulated.lookup {known : List (Nat × α)} (h : Tabulated holds known) {n : Nat} {v : α}
    (hl : known.lookup n = some v) : holds n v := by
  induction known with
  | nil => cases hl
  | cons e rest ih =>
    rw [List.lookup_cons] at hl
    split at hl
    · next he =>
      cases hl
      rw [beq_iff_eq.mp he]
      exact h e List.mem_cons_self
    · exact ih (fun e' he' => h e' (List.mem_cons_of_mem e he')) hl

theorem lookup_isSome_of_mem {known : List (Nat × α)} {e : Nat × α} (h : e ∈ known) :
    (known.lookup e.1).isSome = true := by
  induction known with
  | nil => cases h
  | cons e' rest ih =>
    rw [List.lookup_cons]
    split
    · rfl
    · next hne =>
      rcases List.mem_cons.mp h with rfl | hmem
      · simp at hne
      · exact ih hmem

/-- The largest number found is 0 or one of the table. -/
theorem foldl_max_mem (known : List (Nat × α)) (m : Nat) :
    known.foldl (fun m e => max m e.1) m = m ∨
      ∃ e ∈ known, known.foldl (fun m e => max m e.1) m = e.1 := by
  induction known generalizing m with
  | nil => exact .inl rfl
  | cons e rest ih =>
    rw [List.foldl_cons]
    rcases ih (max m e.1) with heq | ⟨e', hmem, heq⟩
    · rw [heq]
      rcases max_choice m e.1 with hm | hm
      · exact .inl hm
      · exact .inr ⟨e, List.mem_cons_self, hm⟩
    · exact .inr ⟨e', List.mem_cons_of_mem e hmem, heq⟩

variable (a : Arithmetic α)

theorem extendFactorials_holds
    (hstep : ∀ k v, holds k v → holds (k + 1) (a.multiply v (a.fromInt (k + 1))))
    {steps k : Nat} {value : α} {known : List (Nat × α)} (hv : holds k value)
    (hknown : Tabulated holds known) :
    holds (k + steps) (a.extendFactorials steps k value known).1 ∧
      Tabulated holds (a.extendFactorials steps k value known).2 := by
  induction steps generalizing k value known with
  | zero => exact ⟨hv, hknown⟩
  | succ steps ih =>
    have hnext := hstep k value hv
    have htable : Tabulated holds ((k + 1, a.multiply value (a.fromInt (k + 1))) :: known) := by
      intro e he
      rcases List.mem_cons.mp he with rfl | he
      · exact hnext
      · exact hknown e he
    have hrest := ih hnext htable
    rwa [show k + 1 + steps = k + (steps + 1) by omega] at hrest

theorem factorialOf_holds (hone : holds 0 a.one)
    (hstep : ∀ k v, holds k v → holds (k + 1) (a.multiply v (a.fromInt (k + 1))))
    (n : Nat) {known : List (Nat × α)} (hknown : Tabulated holds known) :
    holds n (a.factorialOf n known).1 ∧ Tabulated holds (a.factorialOf n known).2 := by
  unfold factorialOf
  cases hl : known.lookup n with
  | some v => exact ⟨hknown.lookup hl, hknown⟩
  | none =>
    dsimp only
    generalize hk : (known.filter (·.1 < n)).foldl (fun m e => max m e.1) 0 = k
    have hsource : k = 0 ∨ ∃ e ∈ known, e.1 < n ∧ k = e.1 := by
      rcases foldl_max_mem (known.filter (·.1 < n)) 0 with heq | ⟨e, hmem, heq⟩
      · exact .inl (hk ▸ heq)
      · obtain ⟨hmem, hlt⟩ := List.mem_filter.mp hmem
        exact .inr ⟨e, hmem, of_decide_eq_true hlt, hk ▸ heq⟩
    have hle : k ≤ n := by
      rcases hsource with rfl | ⟨e, _, hlt, rfl⟩ <;> omega
    have hstart : holds k ((known.lookup k).getD a.one) := by
      cases hlk : known.lookup k with
      | some v => exact hknown.lookup hlk
      | none =>
        rcases hsource with rfl | ⟨e, hmem, _, rfl⟩
        · exact hone
        · have hsome := lookup_isSome_of_mem hmem
          rw [hlk] at hsome
          cases hsome
    have hend := @extendFactorials_holds _ _ a hstep (n - k) _ _ _ hstart hknown
    rwa [show k + (n - k) = n by omega] at hend

theorem factorial_of_count {x : α} {order : Ordering} {n : Int} (hi : a.isInteger x = true)
    (hc : a.compare x a.zero = .ok (some order)) (ho : order ≠ .lt) (hn : a.toCount x = .ok n)
    (r : Resources α) :
    a.factorial x r = .ok (a.factorialOf n.toNat r.factorials).1
      { r with factorials := (a.factorialOf n.toNat r.factorials).2 } := by
  unfold factorial
  cases order with
  | lt => exact absurd rfl ho
  | eq | gt =>
    simp only [hi, hc, hn]
    rfl

theorem factorial_of_fraction {x : α} (hi : a.isInteger x = false) (r : Resources α) :
    a.factorial x r = .error .noFactorial r := by
  unfold factorial
  rw [hi]
  rfl

theorem factorial_of_negative {x : α} (hc : a.compare x a.zero = .ok (some .lt))
    (r : Resources α) : a.factorial x r = .error .noFactorial r := by
  unfold factorial
  cases hi : a.isInteger x with
  | false => rfl
  | true =>
    simp only [hc]
    rfl

end Arithmetic

namespace Decimal

theorem ofInt_represents (n : Int) : Represents (ofInt n) n := by
  refine ⟨rfl, ?_⟩
  rw [ofInt, toRat, signed_natAbs, zpow_zero, mul_one]

theorem FitsAt.of_lt {p n : Nat} (h : n < 10 ^ p) (hp : p ≤ limit) : FitsAt p n := by
  refine ⟨n, 0, by simp, by simpa using h, ?_, ?_⟩
  · unfold tiniest limit
    omega
  · have hcast : (n : Rat) < 10 ^ (p : Int) := by
      rw [zpow_natCast]
      exact_mod_cast h
    rw [Nat.abs_cast]
    exact lt_of_lt_of_le hcast (tens_le (by omega))

/-- The factorial before one of `p + 1` digits has at most `p`. -/
theorem factorial_lt_tenPow {n p : Nat} (hp : 5 ≤ p)
    (h : ((n + 1).factorial : Rat) < 10 ^ ((p : Int) + 1)) : n.factorial < 10 ^ p := by
  have hlt : (n + 1).factorial < 10 ^ (p + 1) := by
    rw [← Nat.cast_succ, zpow_natCast] at h
    exact_mod_cast h
  by_cases hn : 9 ≤ n
  · rw [Nat.factorial_succ, pow_succ, mul_comm _ 10] at hlt
    have hle : 10 * n.factorial ≤ (n + 1) * n.factorial := Nat.mul_le_mul_right _ (by omega)
    exact Nat.lt_of_mul_lt_mul_left (lt_of_le_of_lt hle hlt)
  · calc n.factorial ≤ Nat.factorial 8 := Nat.factorial_le (by omega)
      _ < 10 ^ 5 := by decide
      _ ≤ 10 ^ p := Nat.pow_le_pow_right (by decide) hp

/-- A factorial that fits is preceded by factorials that fit. -/
theorem FitsAt.factorial_pred {n : Nat} (h : FitsAt limit ((n + 1).factorial : Nat)) :
    FitsAt limit (n.factorial : Nat) := by
  have hrange := h.range
  rw [Nat.abs_cast] at hrange
  exact .of_lt (factorial_lt_tenPow (by decide) hrange) le_rfl

end Decimal

end Abacus
