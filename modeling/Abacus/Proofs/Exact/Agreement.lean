import Abacus.Proofs.Exact.Factorials
import Abacus.Proofs.Exact.Powers
import Abacus.Proofs.Rounding.Sums
import Abacus.Proofs.Simulation.Basic

/-! Decimal numbers of any length and fractions are two representations of exact arithmetic. As long
as the exact results fit the digits and the exponents of decimal numbers, every operation that is
exact in both gives the same number in both, and fails in both for the same reason. -/

namespace Abacus

open Decimal

/-- A number with no more digits, and no larger or smaller exponent, than exact results may have. -/
def Bignumber.Fits (q : Rat) : Prop :=
  FitsAt Bignumber.exact q

open Bignumber (Fits)

/-- Both computations give a number, and the same one. -/
def SameNumber : Except Failure Decimal → Except Failure Rat → Prop :=
  SameResult (fun _ _ => False) Represents

/-- Every factorial kept on either side is right, unless it does not fit. -/
structure SameFactorials (r : Resources Decimal) (t : Resources Rat) : Prop where
  decimal : Arithmetic.Tabulated
    (fun k v => Fits (k.factorial : Nat) → Represents v (k.factorial : Nat)) r.factorials
  fraction : Arithmetic.Tabulated (fun k (q : Rat) => q = (k.factorial : Nat)) t.factorials

/-- The value of a decimal number commutes with the operations of two kinds of arithmetic wherever
the exact results fit. -/
structure ExactlyAgree (a : Arithmetic Decimal) (b : Arithmetic Rat) : Prop where
  add : ∀ x y : Decimal, x.isFinite → y.isFinite → Fits (b.add x.toRat y.toRat) →
    Represents (a.add x y) (b.add x.toRat y.toRat)
  subtract : ∀ x y : Decimal, x.isFinite → y.isFinite → Fits (b.subtract x.toRat y.toRat) →
    Represents (a.subtract x y) (b.subtract x.toRat y.toRat)
  multiply : ∀ x y : Decimal, x.isFinite → y.isFinite → Fits (b.multiply x.toRat y.toRat) →
    Represents (a.multiply x y) (b.multiply x.toRat y.toRat)
  compare : ∀ x y : Decimal, x.isFinite → y.isFinite → a.compare x y = b.compare x.toRat y.toRat
  relation : ∀ op ∈ ["==", "!=", ">", "<", ">=", "<="], ∀ x y : Decimal, x.isFinite → y.isFinite →
    SameNumber (a.basic x op y) (b.basic x.toRat op y.toRat)
  isTrue : ∀ x : Decimal, x.isFinite → ∀ cs own cs' own',
    (a.system cs own).isTrue x = (b.system cs' own').isTrue x.toRat
  isInteger : ∀ x : Decimal, x.isFinite → a.isInteger x = b.isInteger x.toRat
  toCount : ∀ x : Decimal, x.isFinite → a.toCount x = b.toCount x.toRat
  absolute : ∀ x : Decimal, x.isFinite → Fits (b.absolute x.toRat) →
    Represents (a.absolute x) (b.absolute x.toRat)
  toInteger : ∀ d x, x.isFinite → Represents (a.toInteger d x) (b.toInteger d x.toRat)
  sign : ∀ x : Decimal, x.isFinite → SameNumber (a.sign x) (b.sign x.toRat)
  /-- `min` and `max` -/
  extreme : ∀ name better xs, (∀ x ∈ xs, x.isFinite) →
    SameResult Eq Represents (a.extreme name better xs) (b.extreme name better (xs.map toRat))
  /-- The sum of the first numbers is an exact result as well, however many there are. -/
  total : ∀ xs, (∀ x ∈ xs, x.isFinite) → (∀ ys, ys <+: xs → Fits (b.total (ys.map toRat))) →
    Represents (a.total xs) (b.total (xs.map toRat))
  /-- The integer part of the quotient needs to be written in full. -/
  remainder : ∀ x y : Decimal, x.isFinite → y.isFinite → y.toRat ≠ 0 →
    InFull Bignumber.exact (Fraction.truncate (x.toRat / y.toRat)) →
    Fits (x.toRat - y.toRat * Fraction.truncate (x.toRat / y.toRat)) →
    SameNumber (a.remainder x y) (b.remainder x.toRat y.toRat)
  modulo : ∀ x y : Decimal, x.isFinite → y.isFinite → Fits x.toRat → Fits y.toRat →
    y.toRat ≠ 0 → InFull Bignumber.exact (Fraction.truncate (x.toRat / y.toRat)) →
    Fits (x.toRat - y.toRat * ⌊x.toRat / y.toRat⌋) →
    SameNumber (a.modulo x y) (b.modulo x.toRat y.toRat)
  power : ∀ (x y : Decimal) (n : Nat), x.isFinite → y.isFinite → y.toRat = n → Fits (x.toRat ^ n) →
    SameNumber (a.power x y) (b.power x.toRat y.toRat)
  /-- Only natural numbers have a factorial. -/
  factorial : ∀ (x : Decimal) r t, x.isFinite → SameFactorials r t →
    Draws False
      (fun v (q : Rat) =>
        ∃ n : Nat, x.toRat = n ∧ q = (n.factorial : Nat) ∧ (Fits q → Represents v q))
      (fun f g => f = g ∧ ∀ n : Nat, x.toRat ≠ n) SameFactorials
      (a.factorial x r) (b.factorial x.toRat t)
  fresh : ∀ cs own cs' own' seed inputs, SameFactorials
    ((a.system cs own).resources seed inputs) ((b.system cs' own').resources seed inputs)

namespace Fraction

theorem powerInt_natCast (x : Rat) (n : Nat) : powerInt x n = x ^ n := by
  have hpow : mkRat (x.num ^ n) (x.den ^ n) = x ^ n := by
    rw [Rat.mkRat_eq_div]
    push_cast
    rw [← div_pow, Rat.num_div_den]
  simpa [powerInt] using hpow

theorem power_natCast (x : Rat) (n : Nat) : power x n = .ok (x ^ n) := by
  have hnonneg : ¬ (n : Rat) < 0 := not_lt.mpr (Nat.cast_nonneg n)
  rw [power, if_pos (Rat.den_natCast n), if_neg (fun h => hnonneg h.2), Rat.num_natCast,
    powerInt_natCast]

theorem absolute_eq (x : Rat) : (if x < 0 then -x else x) = |x| := by
  split
  · next hx => rw [abs_of_neg hx]
  · next hx => rw [abs_of_nonneg (not_lt.mp hx)]

end Fraction

section Lists

variable {a : Arithmetic Decimal} {b : Arithmetic Rat}

theorem extremeFrom_same
    (hcompare : ∀ x y : Decimal, x.isFinite → y.isFinite →
      a.compare x y = b.compare x.toRat y.toRat)
    (name : String) (better : Ordering → Bool) {best : Decimal} {xs : List Decimal}
    (hbest : best.isFinite) (hxs : ∀ x ∈ xs, x.isFinite) :
    SameResult Eq Represents (a.extremeFrom name better best xs)
      (b.extremeFrom name better best.toRat (xs.map toRat)) := by
  induction xs generalizing best with
  | nil => exact .ok ⟨hbest, rfl⟩
  | cons x rest ih =>
    have hx := hxs x List.mem_cons_self
    have hrest := fun y hy => hxs y (List.mem_cons_of_mem x hy)
    simp only [Arithmetic.extremeFrom, List.map_cons, hcompare x best hx hbest]
    cases b.compare x.toRat best.toRat with
    | error f => exact .error rfl
    | ok order =>
      cases order with
      | none => exact .error rfl
      | some order =>
        cases hb : better order with
        | true => simpa [bind, Except.bind, hb] using ih hx hrest
        | false => simpa [bind, Except.bind, hb] using ih hbest hrest

theorem total_represents (hzero : Represents a.zero b.zero)
    (hadd : ∀ x y : Decimal, x.isFinite → y.isFinite → Fits (b.add x.toRat y.toRat) →
      Represents (a.add x y) (b.add x.toRat y.toRat))
    {xs : List Decimal} (hxs : ∀ x ∈ xs, x.isFinite)
    (hfits : ∀ ys, ys <+: xs → Fits (b.total (ys.map toRat))) :
    Represents (a.total xs) (b.total (xs.map toRat)) := by
  induction xs using List.reverseRecOn with
  | nil => exact hzero
  | append_singleton xs x ih =>
    have hsum := ih (fun y hy => hxs y (List.mem_append_left _ hy))
      (fun ys hys => hfits ys (hys.trans (List.prefix_append xs [x])))
    have hlast := hfits (xs ++ [x]) (List.prefix_refl _)
    simp only [Arithmetic.total, List.map_append, List.map_cons, List.map_nil,
      List.foldl_append, List.foldl_cons, List.foldl_nil] at hsum hlast ⊢
    rw [← hsum.value] at hlast ⊢
    exact hadd _ _ hsum.finite (hxs x (by simp)) hlast

end Lists

theorem Arithmetic.modulo_of_remainder {α : Type} (a : Arithmetic α) {x y r : α}
    {s t : Option Ordering} (hr : a.remainder x y = .ok r) (hs : a.compare r a.zero = .ok s)
    (ht : a.compare y a.zero = .ok t) :
    a.modulo x y = .ok (if a.isZero r || s == t then r else a.add r y) := by
  simp only [modulo, hr, hs, ht, bind, Except.bind, pure, Except.pure]
  cases a.isZero r <;> cases s == t <;> rfl

namespace Fraction

theorem truncate_of_nonpos {x : Rat} (hx : x ≤ 0) : truncate x = ⌈x⌉ := by
  have hneg := truncate_neg (-x)
  rw [neg_neg, truncate_of_nonneg (neg_nonneg.mpr hx), Int.floor_neg, neg_neg] at hneg
  exact hneg

theorem modulo_cases (digits : Int) (digitLimit : Option Nat) (x : Rat) {y r : Rat}
    (hr : remainder x y = .ok r) :
    (arithmetic digits digitLimit).modulo x y =
      .ok (if r == 0 || some (order r 0) == some (order y 0) then r else r + y) :=
  (arithmetic digits digitLimit).modulo_of_remainder hr rfl rfl

/-- A multiple of the divisor is kept unless it has the other sign. -/
theorem kept_iff (d : Rat) {y : Rat} (hy : y ≠ 0) :
    (d * y == 0 || some (order (d * y) 0) == some (order y 0)) = true ↔ 0 ≤ d := by
  rcases lt_trichotomy d 0 with hd | rfl | hd
  · have hne : d * y ≠ 0 := mul_ne_zero hd.ne hy
    rcases hy.lt_or_gt with hneg | hpos
    · simp [hne, order_of_lt hneg, order_of_gt (mul_pos_of_neg_of_neg hd hneg), hd]
    · simp [hne, order_of_gt hpos, order_of_lt (mul_neg_of_neg_of_pos hd hpos), hd]
  · simp
  · have horder := @order_mul_right y 0 d hd
    rw [zero_mul, mul_comm] at horder
    simp [horder, hd.le]

/-- The remainder is corrected exactly where the quotient was not rounded down. -/
theorem modulo_eq (digits : Int) (digitLimit : Option Nat) (x : Rat) {y : Rat} (hy : y ≠ 0) :
    (arithmetic digits digitLimit).modulo x y = .ok (x - y * ⌊x / y⌋) := by
  have hr : remainder x y = .ok (x - y * truncate (x / y)) := by rw [remainder, if_neg hy]
  rw [modulo_cases digits digitLimit x hr]
  have hrest : ∀ n : Int, x - y * n = (x / y - n) * y := by
    intro n
    rw [sub_mul, div_mul_cancel₀ x hy, mul_comm y]
  rw [hrest, hrest]
  generalize x / y = q
  congr 1
  rcases le_total 0 q with hq | hq
  · rw [truncate_of_nonneg hq]
    exact if_pos ((kept_iff _ hy).mpr (sub_nonneg.mpr (Int.floor_le q)))
  · rw [truncate_of_nonpos hq]
    by_cases hint : q ∈ Set.range Int.cast
    · obtain ⟨n, rfl⟩ := hint
      simp
    · have hceil : ((⌈q⌉ : Int) : Rat) = ⌊q⌋ + 1 := by
        exact_mod_cast (Int.ceil_eq_floor_add_one_iff_notMem q).mpr hint
      have hlt : q < ⌈q⌉ := (Int.le_ceil q).lt_of_ne (fun heq => hint ⟨⌈q⌉, heq.symm⟩)
      rw [if_neg (fun h => (sub_neg.mpr hlt).not_ge ((kept_iff _ hy).mp h)), hceil]
      ring

end Fraction

namespace Decimal

variable {x y : Decimal}

theorem isNaN_of_finite (hx : x.isFinite = true) : x.isNaN = false := by
  cases x with
  | finite => rfl
  | infinite | nan => cases hx

theorem isZero_eq (hx : x.isFinite = true) : x.isZero = (x.toRat == 0) := by
  rw [Bool.eq_iff_iff, isZero_iff hx, beq_iff_eq]

theorem sameValue_eq (hx : x.isFinite = true) (hy : y.isFinite = true) :
    x.sameValue y = (x.toRat == y.toRat) := by
  rw [Bool.eq_iff_iff, sameValue_iff hx hy, beq_iff_eq]

theorem isIntegral_eq (hx : x.isFinite = true) : x.isIntegral = (x.toRat.den == 1) := by
  rw [Bool.eq_iff_iff, isIntegral_iff hx, beq_iff_eq]

theorem order_zero (hx : x.isFinite = true) : x.order? zero = some (Fraction.order x.toRat 0) := by
  have hzero : zero.toRat = 0 := (ofInt_represents 0).value
  rw [order_eq hx rfl, hzero]

end Decimal

namespace Bignumber

variable (places digits : Int) (digitLimit : Option Nat)

theorem boolean_represents (c : Bool) :
    Represents ((arithmetic places).boolean c)
      ((Fraction.arithmetic digits digitLimit).boolean c) := by
  cases c with
  | false => exact ofInt_represents 0
  | true => exact ofInt_represents 1

theorem relation_same {op : String} (hop : op ∈ ["==", "!=", ">", "<", ">=", "<="]) {x y : Decimal}
    (hx : x.isFinite = true) (hy : y.isFinite = true) :
    SameNumber ((arithmetic places).basic x op y)
      ((Fraction.arithmetic digits digitLimit).basic x.toRat op y.toRat) := by
  have hequals : (arithmetic places).equals x y =
      (Fraction.arithmetic digits digitLimit).equals x.toRat y.toRat := sameValue_eq hx hy
  have hcompare : (arithmetic places).compare x y =
      (Fraction.arithmetic digits digitLimit).compare x.toRat y.toRat :=
    congrArg Except.ok (order_eq hx hy)
  simp only [List.mem_cons, List.not_mem_nil, or_false] at hop
  rcases hop with rfl | rfl | rfl | rfl | rfl | rfl
  all_goals
    simp only [Arithmetic.basic, hequals, hcompare]
    exact .ok (boolean_represents places digits digitLimit _)

theorem sign_same {x : Decimal} (hx : x.isFinite = true) :
    SameNumber ((arithmetic places).sign x)
      ((Fraction.arithmetic digits digitLimit).sign x.toRat) := by
  simp only [arithmetic, Fraction.arithmetic, Arithmetic.orderedSign, order_zero hx]
  cases Fraction.order x.toRat 0 with
  | lt => exact .ok (ofInt_represents (-1))
  | eq => exact .ok (ofInt_represents 0)
  | gt => exact .ok (ofInt_represents 1)

theorem power_same {x y : Decimal} {n : Nat} (hx : x.isFinite = true) (hy : y.isFinite = true)
    (hn : y.toRat = n) (h : Fits (x.toRat ^ n)) :
    SameNumber (power places x y) (Fraction.power x.toRat y.toRat) := by
  rw [hn, Fraction.power_natCast]
  have hint := isIntegral_of_natCast hy hn
  simp only [power, isNaN_of_finite hx, isNaN_of_finite hy, hint, Bool.or_self,
    Bool.false_eq_true, if_false, if_true]
  by_cases h0 : n = 0
  · have hzero : y.isZero = true := by
      rw [isZero_iff hy, hn, h0]
      rfl
    rw [if_pos hzero, h0, pow_zero]
    exact .ok (ofInt_represents 1)
  · obtain ⟨hzero, hneg⟩ := positive_of_natCast hy hn h0
    rw [hzero, hneg]
    exact .ok (power_exact hx hy hn h0 h)

theorem remainder_same {x y : Decimal} (hx : x.isFinite = true) (hy : y.isFinite = true)
    (hy0 : y.toRat ≠ 0) (hq : InFull exact (Fraction.truncate (x.toRat / y.toRat)))
    (h : Fits (x.toRat - y.toRat * Fraction.truncate (x.toRat / y.toRat))) :
    SameNumber ((arithmetic places).remainder x y)
      ((Fraction.arithmetic digits digitLimit).remainder x.toRat y.toRat) := by
  simp only [arithmetic, Fraction.arithmetic, Fraction.remainder, if_neg hy0]
  exact .ok (remainder_exact hx hy hy0 hq h)

/-- The remainder with the sign of the dividend is exact. -/
theorem remainder_represents {x y : Decimal} (hx : x.isFinite = true) (hy : y.isFinite = true)
    (hfx : Fits x.toRat) (hfy : Fits y.toRat) (hy0 : y.toRat ≠ 0)
    (hq : InFull exact (Fraction.truncate (x.toRat / y.toRat))) :
    Fits (x.toRat - y.toRat * Fraction.truncate (x.toRat / y.toRat)) ∧
      Represents (Decimal.remainder exact x y)
        (x.toRat - y.toRat * Fraction.truncate (x.toRat / y.toRat)) := by
  obtain ⟨hrest, hle⟩ := Fraction.isRemainder_truncate x.toRat hy0
  have hfits := hfx.remainder hfy _ hrest.small hle
  exact ⟨hfits, remainder_exact hx hy hy0 hq hfits⟩

theorem modulo_same {x y : Decimal} (hx : x.isFinite = true) (hy : y.isFinite = true)
    (hfx : Fits x.toRat) (hfy : Fits y.toRat) (hy0 : y.toRat ≠ 0)
    (hq : InFull exact (Fraction.truncate (x.toRat / y.toRat)))
    (h : Fits (x.toRat - y.toRat * ⌊x.toRat / y.toRat⌋)) :
    SameNumber ((arithmetic places).modulo x y)
      ((Fraction.arithmetic digits digitLimit).modulo x.toRat y.toRat) := by
  obtain ⟨-, hrest⟩ := remainder_represents hx hy hfx hfy hy0 hq
  have hfraction : Fraction.remainder x.toRat y.toRat =
      .ok (x.toRat - y.toRat * Fraction.truncate (x.toRat / y.toRat)) := by
    rw [Fraction.remainder, if_neg hy0]
  have hmodulo := Fraction.modulo_eq digits digitLimit x.toRat hy0
  rw [Fraction.modulo_cases digits digitLimit x.toRat hfraction] at hmodulo ⊢
  rw [← Except.ok.inj hmodulo] at h
  generalize x.toRat - y.toRat * Fraction.truncate (x.toRat / y.toRat) = r at hrest h
  have hdecimal := (arithmetic places).modulo_of_remainder (x := x) (y := y) rfl
    (congrArg Except.ok (order_zero hrest.finite)) (congrArg Except.ok (order_zero hy))
  rw [hdecimal, hrest.value]
  have hzero : (arithmetic places).isZero (Decimal.remainder exact x y) = (r == 0) := by
    rw [← hrest.value]
    exact isZero_eq hrest.finite
  rw [hzero]
  refine .ok ?_
  split
  · exact hrest
  · next hsigns =>
    rw [if_neg hsigns, ← hrest.value] at h
    rw [← hrest.value]
    exact add_exact hrest.finite hy h

theorem absolute_represents {x : Decimal} (hx : x.isFinite = true)
    (h : Fits ((Fraction.arithmetic digits digitLimit).absolute x.toRat)) :
    Represents ((arithmetic places).absolute x)
      ((Fraction.arithmetic digits digitLimit).absolute x.toRat) := by
  have habs : (Fraction.arithmetic digits digitLimit).absolute x.toRat = |x.toRat| :=
    Fraction.absolute_eq x.toRat
  rw [habs] at h ⊢
  exact abs_exact hx (FitsAt.of_abs h)

end Bignumber

section Factorials

variable (places digits : Int) (digitLimit : Option Nat)

/-- One more factor keeps a factorial right as long as it fits. -/
theorem Bignumber.factorial_step (k : Nat) (v : Decimal)
    (hv : Fits (k.factorial : Nat) → Represents v (k.factorial : Nat))
    (hfits : Fits ((k + 1).factorial : Nat)) :
    Represents ((arithmetic places).multiply v ((arithmetic places).fromInt (k + 1)))
      ((k + 1).factorial : Nat) := by
  have hk := hv (FitsAt.factorial_pred hfits)
  have hnext := ofInt_represents (k + 1)
  have hproduct : (((k + 1).factorial : Nat) : Rat) = v.toRat * (ofInt (k + 1)).toRat := by
    rw [hk.value, hnext.value, Nat.factorial_succ, mul_comm]
    push_cast
    rfl
  rw [hproduct] at hfits ⊢
  exact multiply_exact hk.finite hnext.finite hfits

theorem Fraction.factorial_step (k : Nat) (q : Rat) (hq : q = (k.factorial : Nat)) :
    (arithmetic digits digitLimit).multiply q ((arithmetic digits digitLimit).fromInt (k + 1)) =
      ((k + 1).factorial : Nat) := by
  show q * ((k + 1 : Int) : Rat) = _
  rw [hq, Nat.factorial_succ, mul_comm]
  push_cast
  rfl

theorem Bignumber.factorial_natCast {x : Decimal} {n : Nat} (hx : x.isFinite = true)
    (hn : x.toRat = n) (r : Resources Decimal) :
    (arithmetic places).factorial x r = .ok ((arithmetic places).factorialOf n r.factorials).1
      { r with factorials := ((arithmetic places).factorialOf n r.factorials).2 } := by
  have horder : Fraction.order x.toRat 0 ≠ .lt := by
    rw [Ne, Fraction.order_lt_iff, hn, not_lt]
    exact Nat.cast_nonneg n
  have hcount := toCount_exact hx
  rw [hn, Fraction.floor_eq, Int.floor_natCast] at hcount
  exact (arithmetic places).factorial_of_count (isIntegral_of_natCast hx hn)
    (congrArg Except.ok (order_zero hx)) horder hcount r

theorem Fraction.factorial_natCast (n : Nat) (t : Resources Rat) :
    (arithmetic digits digitLimit).factorial n t =
      .ok ((arithmetic digits digitLimit).factorialOf n t.factorials).1
        { t with factorials := ((arithmetic digits digitLimit).factorialOf n t.factorials).2 } := by
  have hinteger : (arithmetic digits digitLimit).isInteger n = true :=
    beq_iff_eq.mpr (Rat.den_natCast n)
  have horder : order n 0 ≠ .lt := by
    rw [Ne, order_lt_iff, not_lt]
    exact Nat.cast_nonneg n
  have hcount : floor n = n := by rw [floor_eq, Int.floor_natCast]
  exact (arithmetic digits digitLimit).factorial_of_count hinteger rfl horder
    (congrArg Except.ok hcount) t

theorem factorial_of_natural {x : Decimal} {n : Nat} (hx : x.isFinite = true) (hn : x.toRat = n)
    {r : Resources Decimal} {t : Resources Rat} (h : SameFactorials r t) :
    ∃ v r' t', (Bignumber.arithmetic places).factorial x r = .ok v r' ∧
      (Fraction.arithmetic digits digitLimit).factorial x.toRat t = .ok (n.factorial : Nat) t' ∧
      (Fits (n.factorial : Nat) → Represents v (n.factorial : Nat)) ∧ SameFactorials r' t' := by
  have hleft := Bignumber.factorial_natCast places hx hn r
  have hright := Fraction.factorial_natCast digits digitLimit n t
  rw [← hn] at hright
  obtain ⟨hv, hdecimal⟩ := (Bignumber.arithmetic places).factorialOf_holds
    (fun _ => ofInt_represents 1) (Bignumber.factorial_step places) n h.decimal
  obtain ⟨hq, hfraction⟩ := (Fraction.arithmetic digits digitLimit).factorialOf_holds
    rfl (Fraction.factorial_step digits digitLimit) n h.fraction
  exact ⟨_, _, _, hleft, hq ▸ hright, hv, hdecimal, hfraction⟩

theorem factorial_of_other {x : Decimal} (hx : x.isFinite = true) (hn : ∀ n : Nat, x.toRat ≠ n)
    (r : Resources Decimal) (t : Resources Rat) :
    (Bignumber.arithmetic places).factorial x r = .error .noFactorial r ∧
      (Fraction.arithmetic digits digitLimit).factorial x.toRat t = .error .noFactorial t := by
  have hinteger := isIntegral_eq hx
  by_cases hden : x.toRat.den = 1
  · have hneg : Fraction.order x.toRat 0 = .lt := by
      rw [Fraction.order_lt_iff]
      by_contra hge
      have hnum : ((x.toRat.num : Int) : Rat) = x.toRat := (Rat.den_eq_one_iff _).mp hden
      have hnonneg : 0 ≤ x.toRat.num := Rat.num_nonneg.mpr (not_lt.mp hge)
      have hcast : ((x.toRat.num.toNat : Int) : Rat) = x.toRat := by
        rw [Int.toNat_of_nonneg hnonneg, hnum]
      exact hn x.toRat.num.toNat hcast.symm
    constructor
    · refine (Bignumber.arithmetic places).factorial_of_negative ?_ r
      exact congrArg Except.ok ((order_zero hx).trans (congrArg some hneg))
    · refine (Fraction.arithmetic digits digitLimit).factorial_of_negative ?_ t
      exact congrArg (fun order => Except.ok (some order)) hneg
  · have hfalse : (x.toRat.den == 1) = false := beq_eq_false_iff_ne.mpr hden
    exact ⟨(Bignumber.arithmetic places).factorial_of_fraction (hinteger.trans hfalse) r,
      (Fraction.arithmetic digits digitLimit).factorial_of_fraction hfalse t⟩

end Factorials

namespace Fraction

/-- Three fits into a power of ten with one left over. -/
theorem remainder_thirds (n : Nat) : remainder (10 ^ n) (3 / 10 ^ 5) = .ok (1 / 10 ^ 5) := by
  have hthree : (3 : Rat) / 10 ^ 5 ≠ 0 := by norm_num
  have hquotient : (10 : Rat) ^ n / (3 / 10 ^ 5) = ((10 ^ (n + 5) : Nat) : Rat) / (3 : Nat) := by
    push_cast
    rw [pow_add, div_div_eq_mul_div]
  have hfloor : truncate ((10 : Rat) ^ n / (3 / 10 ^ 5)) = ((10 ^ (n + 5) / 3 : Nat) : Int) := by
    rw [hquotient, truncate_of_nonneg (by positivity), Number.floor_div]
  have hone : 10 ^ (n + 5) % 3 = 1 := by
    rw [Nat.pow_mod, show 10 % 3 = 1 from rfl, one_pow]
    rfl
  have hparts : ((10 ^ (n + 5) : Nat) : Rat) = 3 * (10 ^ (n + 5) / 3 : Nat) + 1 := by
    have hnat := Nat.div_add_mod (10 ^ (n + 5)) 3
    rw [hone] at hnat
    exact_mod_cast hnat.symm
  have hsplit : (10 : Rat) ^ n = (3 * (10 ^ (n + 5) / 3 : Nat) + 1) / 10 ^ 5 := by
    rw [← hparts, Nat.cast_pow, pow_add]
    norm_num
  rw [remainder, if_neg hthree, hfloor, hsplit, Int.cast_natCast]
  congr 1
  ring

theorem total_three (x y z : Rat) : (arithmetic 2 none).total [x, y, z] = x + y + z := by
  show ((0 : Int) : Rat) + x + y + z = x + y + z
  rw [Int.cast_zero, zero_add]

end Fraction


namespace Bignumber

/-- What is added to the largest power of ten is lost before that is taken away again. -/
theorem total_of_far (places : Int) {x y z : Decimal} (hx : Represents x (-10 ^ (exact : Int)))
    (hy : Represents y (10 ^ (-(exact : Int)))) (hz : Represents z (10 ^ (exact : Int)))
    (hfits : Fits (10 ^ (exact : Int))) : Represents ((arithmetic places).total [x, y, z]) 0 := by
  have hzero := ofInt_represents 0
  have hfirst : Represents (add exact (ofInt 0) x) (-10 ^ (exact : Int)) := by
    have hsum : (ofInt 0).toRat + x.toRat = -10 ^ (exact : Int) := by
      rw [hzero.value, hx.value, Int.cast_zero, zero_add]
    exact hsum ▸ add_exact hzero.finite hx.finite (hsum ▸ hfits.neg)
  show Represents (add exact (add exact (add exact (ofInt 0) x) y) z) 0
  generalize add exact (ofInt 0) x = u at hfirst ⊢
  have hsecond : Rounds exact (10 ^ (-(exact : Int)) - 10 ^ (exact : Int)) (add exact u y) := by
    have hsum : u.toRat + y.toRat = 10 ^ (-(exact : Int)) - 10 ^ (exact : Int) := by
      rw [hfirst.value, hy.value]
      ring
    refine hsum ▸ add_rounds (by decide) hfirst.finite hy.finite (hsum ▸ hfits.hasRoom ?_)
    have hsmall : (10 : Rat) ^ (-(exact : Int)) ≤ 10 ^ (exact : Int) := tens_le (by omega)
    have hpos := tens_pos (-(exact : Int))
    rw [abs_sub_comm, abs_of_nonneg (sub_nonneg.mpr hsmall), abs_of_pos (tens_pos _)]
    linarith
  have hvalue := hsecond.eq_of_far (by decide)
  have hsum : (add exact u y).toRat + z.toRat = 0 := by
    rw [hvalue, hz.value, zpow_natCast]
    push_cast
    ring
  have hnothing : FitsAt exact 0 := by
    have hnat : FitsAt exact ((0 : Nat) : Rat) := .of_lt (Nat.pow_pos (by decide)) le_rfl
    rwa [Nat.cast_zero] at hnat
  exact hsum ▸ add_exact hsecond.finite hz.finite (hsum ▸ hnothing)

end Bignumber

theorem exact_systems_agree (places digits : Int) (digitLimit : Option Nat) :
    ExactlyAgree (Bignumber.arithmetic places) (Fraction.arithmetic digits digitLimit) where
  add x y hx hy h := add_exact hx hy h
  subtract x y hx hy h := subtract_exact hx hy h
  multiply x y hx hy h := multiply_exact hx hy h
  compare x y hx hy := congrArg Except.ok (order_eq hx hy)
  relation op hop x y hx hy := Bignumber.relation_same places digits digitLimit hop hx hy
  isTrue x hx _ _ _ _ := congrArg not (isZero_eq hx)
  isInteger x hx := isIntegral_eq hx
  toCount x hx := toCount_exact hx
  absolute x hx h := Bignumber.absolute_represents places digits digitLimit hx h
  toInteger d x hx := toIntegral_exact hx d
  sign x hx := Bignumber.sign_same places digits digitLimit hx
  extreme name better xs hxs := by
    cases xs with
    | nil => exact .error rfl
    | cons x rest =>
      exact extremeFrom_same (fun x y hx hy => congrArg Except.ok (order_eq hx hy)) name better
        (hxs x List.mem_cons_self) (fun y hy => hxs y (List.mem_cons_of_mem x hy))
  total xs hxs h :=
    total_represents (a := Bignumber.arithmetic places)
      (b := Fraction.arithmetic digits digitLimit)
      (ofInt_represents 0) (fun x y hx hy h => add_exact hx hy h) hxs h
  remainder x y hx hy hy0 hq h := Bignumber.remainder_same places digits digitLimit hx hy hy0 hq h
  modulo x y hx hy hfx hfy hy0 hq h :=
    Bignumber.modulo_same places digits digitLimit hx hy hfx hfy hy0 hq h
  power x y n hx hy hn h := Bignumber.power_same places hx hy hn h
  factorial x r t hx h := by
    by_cases hnat : ∃ n : Nat, x.toRat = n
    · obtain ⟨n, hn⟩ := hnat
      obtain ⟨v, r', t', hleft, hright, hv, hkept⟩ :=
        factorial_of_natural places digits digitLimit hx hn h
      rw [hleft, hright]
      exact .ok ⟨n, hn, rfl, hv⟩ hkept
    · have hn : ∀ n : Nat, x.toRat ≠ n := fun n hn => hnat ⟨n, hn⟩
      obtain ⟨hleft, hright⟩ := factorial_of_other places digits digitLimit hx hn r t
      rw [hleft, hright]
      exact .error ⟨rfl, hn⟩ h
  fresh _ _ _ _ _ _ := by
    constructor
    · intro e he _
      rw [List.mem_singleton.mp he]
      exact ofInt_represents 1
    · intro e he
      rw [List.mem_singleton.mp he]
      rfl

/-- The quotient of a remainder may have more digits than any decimal number, and the first numbers
of a list a sum with more digits, although what is left in the end has one digit. -/
theorem exact_systems_not_always_agree :
    let x := Decimal.finite false 1 limit
    let y := Decimal.finite false 3 (-5)
    let u := Decimal.finite true 1 limit
    let v := Decimal.finite false 1 (-limit)
    (Fits x.toRat ∧ Fits y.toRat ∧ Fits u.toRat ∧ Fits v.toRat) ∧
      (∃ r : Rat, Fits r ∧ (Fraction.arithmetic 2 none).remainder x.toRat y.toRat = .ok r ∧
        (Bignumber.arithmetic 2).remainder x y = .ok .nan) ∧
      (Fraction.arithmetic 2 none).total ([u, v, x].map toRat) = v.toRat ∧
      ¬ Represents ((Bignumber.arithmetic 2).total [u, v, x]) v.toRat := by
  intro x y u v
  have hdigits : 3 < 10 ^ Bignumber.exact :=
    lt_of_lt_of_le (by decide : 3 < 10 ^ 1)
      (Nat.pow_le_pow_right (by decide) (by decide : 1 ≤ Bignumber.exact))
  have hone : 1 < 10 ^ Bignumber.exact := (by decide : 1 < 3).trans hdigits
  have hx : x.toRat = 10 ^ (Bignumber.exact : Int) := by
    show (Decimal.finite false 1 (Bignumber.exact : Int)).toRat = _
    simp [toRat, signed]
  have hy : y.toRat = 3 / 10 ^ 5 := by
    show (Decimal.finite false 3 (-5)).toRat = _
    simp [toRat, signed, zpow_neg, div_eq_mul_inv]
  have hu : u.toRat = -10 ^ (Bignumber.exact : Int) := by
    show (Decimal.finite true 1 (Bignumber.exact : Int)).toRat = _
    simp [toRat, signed]
  have hv : v.toRat = 10 ^ (-(Bignumber.exact : Int)) := by
    show (Decimal.finite false 1 (-(Bignumber.exact : Int))).toRat = _
    simp [toRat, signed]
  have hfits : Fits x.toRat := .of_finite false hone (by decide +kernel) (by decide +kernel)
  have hrest : Fits (1 / 10 ^ 5) := by
    have hlast : Fits (Decimal.finite false 1 (-5)).toRat :=
      .of_finite false hone (by decide +kernel) (by decide +kernel)
    have hvalue : (Decimal.finite false 1 (-5)).toRat = 1 / 10 ^ 5 := by
      simp [toRat, signed, zpow_neg]
    exact hvalue ▸ hlast
  refine ⟨⟨hfits, ?_, ?_, ?_⟩, ⟨1 / 10 ^ 5, hrest, ?_, by decide +kernel⟩, ?_, ?_⟩
  · exact .of_finite false hdigits (by decide +kernel) (by decide +kernel)
  · exact .of_finite true hone (by decide +kernel) (by decide +kernel)
  · exact .of_finite false hone (by decide +kernel) (by decide +kernel)
  · rw [hx, hy, zpow_natCast]
    exact Fraction.remainder_thirds Bignumber.exact
  · rw [List.map_cons, List.map_cons, List.map_cons, List.map_nil, Fraction.total_three, hu, hx]
    ring
  · intro h
    have hzero := Bignumber.total_of_far 2 ⟨rfl, hu⟩ ⟨rfl, hv⟩ ⟨rfl, hx⟩ (hx ▸ hfits)
    have hpos := tens_pos (-(Bignumber.exact : Int))
    rw [← hv, ← h.value, hzero.value] at hpos
    exact hpos.false

/-- Halves of both signs are rounded away from zero, whatever the representation. -/
example : ((Bignumber.arithmetic 20).toInteger .nearest (.finite true 250 (-2))).toRat =
    (Fraction.arithmetic 20 none).toInteger .nearest (-5 / 2) := by
  decide +kernel

end Abacus
