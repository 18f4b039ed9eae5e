import Abacus.Proofs.Exact.Agreement

/-! The factorials that are kept. A table that starts with zero has no gaps, and continues the same
product wherever a call left off: what a call gives does not depend on the calls before it. -/

namespace Abacus

namespace Arithmetic

variable {α : Type} (a : Arithmetic α)

/-- The factors from 1 to `n`, multiplied one after another. -/
def product : Nat → α
  | 0 => a.one
  | n + 1 => a.multiply (product n) (a.fromInt (n + 1))

/-- The factorials up to `m`, the last one first. -/
def table : Nat → List (Nat × α)
  | 0 => [(0, a.one)]
  | m + 1 => (m + 1, a.product (m + 1)) :: table m

theorem keys_table (m : Nat) : (a.table m).map Prod.fst = (List.range (m + 1)).reverse := by
  induction m with
  | zero => rfl
  | succ m ih => rw [table, List.map_cons, ih, List.range_succ (n := m + 1), List.reverse_concat]

theorem le_of_mem_table {m : Nat} {e : Nat × α} (he : e ∈ a.table m) : e.1 ≤ m := by
  have hkey := List.mem_map_of_mem (f := Prod.fst) he
  rw [keys_table, List.mem_reverse, List.mem_range] at hkey
  omega

theorem lookup_table {n m : Nat} (h : n ≤ m) : (a.table m).lookup n = some (a.product n) := by
  induction m with
  | zero =>
    obtain rfl : n = 0 := by omega
    rfl
  | succ m ih =>
    rw [table, List.lookup_cons]
    split
    · next hn => rw [beq_iff_eq.mp hn]
    · next hn =>
      have hne : n ≠ m + 1 := beq_eq_false_iff_ne.mp hn
      exact ih (by omega)

theorem lookup_table_of_lt {n m : Nat} (h : m < n) : (a.table m).lookup n = none := by
  rw [List.lookup_eq_none_iff]
  intro e he
  have hle := a.le_of_mem_table he
  simp only [bne_iff_ne, ne_eq]
  omega

theorem foldl_max_table (m k : Nat) :
    (a.table m).foldl (fun k e => max k e.1) k = max k m := by
  induction m generalizing k with
  | zero => rfl
  | succ m ih =>
    rw [table, List.foldl_cons, ih]
    dsimp only
    omega

theorem extendFactorials_table (steps m : Nat) :
    a.extendFactorials steps m (a.product m) (a.table m) =
      (a.product (m + steps), a.table (m + steps)) := by
  induction steps generalizing m with
  | zero => rfl
  | succ steps ih =>
    have hnext := ih (m + 1)
    rwa [show m + 1 + steps = m + (steps + 1) by omega] at hnext

/-- A factorial is looked up or continued from the last one. -/
theorem factorialOf_table (n m : Nat) :
    a.factorialOf n (a.table m) = (a.product n, a.table (max m n)) := by
  unfold factorialOf
  by_cases hn : n ≤ m
  · rw [a.lookup_table hn, max_eq_left hn]
  · have hlt : m < n := not_le.mp hn
    have hall : (a.table m).filter (·.1 < n) = a.table m :=
      List.filter_eq_self.mpr (fun e he =>
        decide_eq_true (lt_of_le_of_lt (a.le_of_mem_table he) hlt))
    have hend := a.extendFactorials_table (n - m) m
    rw [show m + (n - m) = n by omega] at hend
    rw [a.lookup_table_of_lt hlt, max_eq_right hlt.le]
    dsimp only
    rw [hall, a.foldl_max_table, Nat.zero_max, a.lookup_table le_rfl]
    exact hend

/-- Whether a call fails, and which factorial it asks for, depends on its argument alone. -/
theorem factorial_cases (x : α) :
    (∃ f, ∀ r, a.factorial x r = .error f r) ∨
      ∃ n : Nat, ∀ r, a.factorial x r = .ok (a.factorialOf n r.factorials).1
        { r with factorials := (a.factorialOf n r.factorials).2 } := by
  unfold factorial
  cases hinteger : a.isInteger x with
  | false => exact .inl ⟨_, fun _ => rfl⟩
  | true =>
    cases hcompare : a.compare x a.zero with
    | error f => exact .inl ⟨f, fun _ => rfl⟩
    | ok order =>
      by_cases hneg : order = some .lt
      · subst hneg
        exact .inl ⟨_, fun _ => rfl⟩
      · cases hcount : a.toCount x with
        | error f =>
          refine .inl ⟨f, fun r => ?_⟩
          rcases order with _ | _ | _ | _ <;> first | rfl | exact absurd rfl hneg
        | ok n =>
          refine .inr ⟨n.toNat, fun r => ?_⟩
          rcases order with _ | _ | _ | _ <;> first | rfl | exact absurd rfl hneg

/-- What one backend has left after some calls, successful or not. -/
def afterCalls (xs : List α) (r : Resources α) : Resources α :=
  xs.foldl (fun r x =>
    match a.factorial x r with
    | .ok _ r' => r'
    | .error _ r' => r') r

theorem afterCalls_table (xs : List α) {r : Resources α} {m : Nat}
    (h : r.factorials = a.table m) : ∃ k, (a.afterCalls xs r).factorials = a.table k := by
  induction xs generalizing r m with
  | nil => exact ⟨m, h⟩
  | cons x xs ih =>
    rw [afterCalls, List.foldl_cons]
    rcases a.factorial_cases x with ⟨f, hf⟩ | ⟨n, hn⟩
    · rw [hf r]
      exact ih h
    · have hnext : (a.factorialOf n r.factorials).2 = a.table (max m n) := by
        rw [h, a.factorialOf_table]
      rw [hn r]
      exact ih hnext

/-- What a call gives, without what it leaves. -/
def outcome {ε σ β : Type} : EStateM.Result ε σ β → Except ε β
  | .ok v _ => .ok v
  | .error f _ => .error f

/-- Nothing but the time that they take tells calls for factorials from those of a fresh backend. -/
structure Invisible (fresh r : Resources α) : Prop where
  keys : ∃ m, r.factorials.map Prod.fst = (List.range (m + 1)).reverse
  failed : ∀ x f r', a.factorial x r = .error f r' → r' = r
  same : ∀ x, outcome (a.factorial x r) = outcome (a.factorial x fresh)

theorem invisible_afterCalls (xs : List α) {fresh : Resources α}
    (h : fresh.factorials = a.table 0) : a.Invisible fresh (a.afterCalls xs fresh) := by
  obtain ⟨m, hm⟩ := a.afterCalls_table xs h
  refine ⟨⟨m, by rw [hm, a.keys_table]⟩, fun x f r' hx => ?_, fun x => ?_⟩
  · rcases a.factorial_cases x with ⟨f, hf⟩ | ⟨n, hn⟩
    · rw [hf] at hx
      cases hx
      rfl
    · rw [hn] at hx
      cases hx
  · rcases a.factorial_cases x with ⟨f, hf⟩ | ⟨n, hn⟩
    · rw [hf, hf]
      rfl
    · rw [hn, hn, hm, h, a.factorialOf_table, a.factorialOf_table]
      rfl

end Arithmetic

open Decimal Bignumber

variable (places digits : Int) (digitLimit : Option Nat)

theorem Bignumber.product_represents {n : Nat} (h : Fits (n.factorial : Nat)) :
    Represents ((Bignumber.arithmetic places).product n) (n.factorial : Nat) := by
  induction n with
  | zero => exact ofInt_represents 1
  | succ n ih => exact Bignumber.factorial_step places n _ ih h

theorem Fraction.product_eq (n : Nat) :
    (Fraction.arithmetic digits digitLimit).product n = (n.factorial : Nat) := by
  induction n with
  | zero => rfl
  | succ n ih => exact Fraction.factorial_step digits digitLimit n _ ih

/-- The factorials that are kept are invisible in every number system, and exact in two of them. -/
theorem factorials_invisible (seed : Int) (inputs : List String) :
    (∀ {α : Type} (a : Arithmetic α) (cs : List (String × α)) (own : List (Builtin α))
      (xs : List α), a.Invisible ((a.system cs own).resources seed inputs)
        (a.afterCalls xs ((a.system cs own).resources seed inputs))) ∧
    (∀ (places : Int) (xs : List Decimal) (x : Decimal) (n : Nat), x.isFinite → x.toRat = n →
      Fits (n.factorial : Nat) → ∃ v r', (Bignumber.arithmetic places).factorial x
        ((Bignumber.arithmetic places).afterCalls xs
          ((Bignumber.system places).resources seed inputs)) = .ok v r' ∧
        Represents v (n.factorial : Nat)) ∧
    ∀ (digits : Int) (digitLimit : Option Nat) (xs : List Rat) (n : Nat), ∃ r',
      (Fraction.arithmetic digits digitLimit).factorial n
        ((Fraction.arithmetic digits digitLimit).afterCalls xs
          ((Fraction.system digits digitLimit).resources seed inputs)) =
        .ok (n.factorial : Nat) r' := by
  refine ⟨fun a _ _ xs => a.invisible_afterCalls xs rfl, fun places xs x n hx hn hfits => ?_,
    fun digits digitLimit xs n => ?_⟩
  · obtain ⟨m, hm⟩ := (Bignumber.arithmetic places).afterCalls_table xs
      (r := (Bignumber.system places).resources seed inputs) (m := 0) rfl
    refine ⟨_, _, Bignumber.factorial_natCast places hx hn _, ?_⟩
    rw [hm, Arithmetic.factorialOf_table]
    exact Bignumber.product_represents places hfits
  · obtain ⟨m, hm⟩ := (Fraction.arithmetic digits digitLimit).afterCalls_table xs
      (r := (Fraction.system digits digitLimit).resources seed inputs) (m := 0) rfl
    have hcall := Fraction.factorial_natCast digits digitLimit n
      ((Fraction.arithmetic digits digitLimit).afterCalls xs
        ((Fraction.system digits digitLimit).resources seed inputs))
    rw [hm, Arithmetic.factorialOf_table, Fraction.product_eq] at hcall
    exact ⟨_, hcall⟩

/-- After a smaller factorial, a call that fails and a larger factorial, 4! is still 24. -/
theorem factorial_four_after_calls :
    ∃ v r', (Bignumber.arithmetic 2).factorial (ofNat 4)
      ((Bignumber.arithmetic 2).afterCalls [ofNat 3, ofInt (-1), ofNat 6]
        ((Bignumber.system 2).resources 0 [])) = .ok v r' ∧ Represents v 24 := by
  have hvalue : (ofNat 4).toRat = (4 : Nat) := by decide +kernel
  have hfits : Fits ((Nat.factorial 4 : Nat) : Rat) :=
    (FitsAt.of_lt (p := 2) (by decide) (by decide)).mono (by decide)
  exact (factorials_invisible 0 []).2.1 2 _ (ofNat 4) 4 rfl hvalue hfits

end Abacus
