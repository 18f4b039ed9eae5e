import Abacus.Proofs.Exact.Agreement
import Abacus.Proofs.Rounding.Sums

/-! Remainders. The operator `%` leaves a remainder with the sign of the dividend and `mod` one with
the sign of the divisor, in fractions and in decimal numbers of any length. -/

namespace Abacus

open Decimal

/-- The remainder to the quotient rounded down. -/
theorem isRemainder_floor (x : Rat) {y : Rat} (hy : y ≠ 0) :
    IsRemainder x y y (x - y * ⌊x / y⌋) := by
  have hfract : x - y * ⌊x / y⌋ = Int.fract (x / y) * y := by
    rw [Int.fract, sub_mul, div_mul_cancel₀ x hy, mul_comm]
  have hnonneg := Int.fract_nonneg (x / y)
  refine ⟨⟨⌊x / y⌋, by ring⟩, ?_, ?_⟩
  · rw [hfract, abs_mul, abs_of_nonneg hnonneg]
    exact mul_lt_of_lt_one_left (abs_pos.mpr hy) (Int.fract_lt_one _)
  · rw [hfract]
    rcases hnonneg.eq_or_lt with hzero | hpos
    · exact .inl (by rw [← hzero, zero_mul])
    · exact .inr (by rw [sign_mul, sign_pos hpos, one_mul])

namespace Bignumber

variable (places : Int) {x y : Decimal}

/-- The remainder with the sign of the divisor is a sum of two exact numbers, or one of them. -/
theorem modulo_rounds (hx : x.isFinite = true) (hy : y.isFinite = true)
    (hfx : Fits x.toRat) (hfy : Fits y.toRat) (hy0 : y.toRat ≠ 0)
    (hq : InFull exact (Fraction.truncate (x.toRat / y.toRat))) :
    ∃ m, (arithmetic places).modulo x y = .ok m ∧
      Rounds exact (x.toRat - y.toRat * ⌊x.toRat / y.toRat⌋) m := by
  obtain ⟨hfits, hrest⟩ := remainder_represents hx hy hfx hfy hy0 hq
  have hsmall := (isRemainder_floor x.toRat hy0).small
  have hfraction : Fraction.remainder x.toRat y.toRat =
      .ok (x.toRat - y.toRat * Fraction.truncate (x.toRat / y.toRat)) := by
    rw [Fraction.remainder, if_neg hy0]
  have hmodulo := Fraction.modulo_eq 0 none x.toRat hy0
  rw [Fraction.modulo_cases 0 none x.toRat hfraction] at hmodulo
  rw [← Except.ok.inj hmodulo] at hsmall ⊢
  generalize x.toRat - y.toRat * Fraction.truncate (x.toRat / y.toRat) = r at *
  have hdecimal := (arithmetic places).modulo_of_remainder (x := x) (y := y) rfl
    (congrArg Except.ok (order_zero hrest.finite)) (congrArg Except.ok (order_zero hy))
  have hzero : (arithmetic places).isZero (Decimal.remainder exact x y) = (r == 0) := by
    rw [← hrest.value]
    exact isZero_eq hrest.finite
  rw [hrest.value, hzero] at hdecimal
  refine ⟨_, hdecimal, ?_⟩
  split
  · exact .of_represents hrest hfits
  · next hsigns =>
    rw [if_neg hsigns] at hsmall
    have hroom : HasRoom exact ((Decimal.remainder exact x y).toRat + y.toRat) := by
      rw [hrest.value]
      exact hfy.hasRoom hsmall.le
    have hadd := add_rounds (by decide) hrest.finite hy hroom
    rwa [hrest.value] at hadd

end Bignumber

/-- Both remainders exist and lie on the side they should, in both kinds of numbers. A modulo with
more digits than a decimal number can have is the nearest number with that many. -/
theorem remainders_take_signs (places digits : Int) (digitLimit : Option Nat) :
    (∀ x y : Rat, y ≠ 0 → ∃ r m,
      (Fraction.arithmetic digits digitLimit).remainder x y = .ok r ∧
      (Fraction.arithmetic digits digitLimit).modulo x y = .ok m ∧
      IsRemainder x y x r ∧ IsRemainder x y y m) ∧
    ∀ x y : Decimal, x.isFinite = true → y.isFinite = true →
      Bignumber.Fits x.toRat → Bignumber.Fits y.toRat → y.toRat ≠ 0 →
      InFull Bignumber.exact (Fraction.truncate (x.toRat / y.toRat)) → ∃ r m q,
        (Bignumber.arithmetic places).remainder x y = .ok r ∧
        (Bignumber.arithmetic places).modulo x y = .ok m ∧
        r.isFinite = true ∧ IsRemainder x.toRat y.toRat x.toRat r.toRat ∧
        m.isFinite = true ∧ IsRemainder x.toRat y.toRat y.toRat q ∧
        Rounds Bignumber.exact q m ∧ (Bignumber.Fits q → m.toRat = q) := by
  constructor
  · intro x y hy
    refine ⟨_, _, if_neg hy, Fraction.modulo_eq digits digitLimit x hy, ?_, isRemainder_floor x hy⟩
    exact (Fraction.isRemainder_truncate x hy).1
  · intro x y hx hy hfx hfy hy0 hq
    obtain ⟨-, hrest⟩ := Bignumber.remainder_represents hx hy hfx hfy hy0 hq
    obtain ⟨m, hm, hrounds⟩ := Bignumber.modulo_rounds places hx hy hfx hfy hy0 hq
    refine ⟨_, m, _, rfl, hm, hrest.finite, ?_, hrounds.finite, isRemainder_floor _ hy0, hrounds,
      hrounds.eq_of_fits⟩
    rw [hrest.value]
    exact (Fraction.isRemainder_truncate _ hy0).1

/-- Seven and a half below zero and two leave `-1.5` with `%` and `0.5` with `mod`. -/
theorem remainders_of_opposite_signs :
    (∃ r m, (Fraction.arithmetic 2 none).remainder (-15 / 2) 2 = .ok r ∧
      (Fraction.arithmetic 2 none).modulo (-15 / 2) 2 = .ok m ∧
      IsRemainder (-15 / 2) 2 (-15 / 2) r ∧ IsRemainder (-15 / 2) 2 2 m) ∧
    ∃ x y r m : Decimal, (Bignumber.arithmetic 2).remainder x y = .ok r ∧
      (Bignumber.arithmetic 2).modulo x y = .ok m ∧ r.toRat = -3 / 2 ∧ m.toRat = 1 / 2 ∧
      IsRemainder (-15 / 2) 2 (-15 / 2) r.toRat ∧ IsRemainder (-15 / 2) 2 2 m.toRat := by
  have hx : (Decimal.finite true 75 (-1)).toRat = -15 / 2 := by decide +kernel
  have hy : (Decimal.finite false 2 0).toRat = 2 := by decide +kernel
  have hlimit : (100 : Rat) < 10 ^ ((limit : Int) + 1) := by
    have hpow : (100 : Rat) = 10 ^ (2 : Int) := by norm_num
    rw [hpow]
    exact tens_lt_iff.mpr (by decide)
  have hfits : ∀ {n e : Int} {q : Rat}, q = n * 10 ^ e → n.natAbs < 10 ^ 2 → -1 ≤ e → |q| ≤ 8 →
      Bignumber.Fits q := by
    intro n e q hq hn he hle
    refine ⟨n, e, hq, lt_of_lt_of_le hn ?_, ?_, lt_of_le_of_lt (hle.trans (by norm_num)) hlimit⟩
    · exact Nat.pow_le_pow_right (by decide) (by decide)
    · unfold tiniest Bignumber.exact limit
      omega
  have hfx : Bignumber.Fits (-15 / 2) :=
    hfits (n := -75) (e := -1) (by norm_num) (by decide) (by decide) (by norm_num [abs_le])
  have hfy : Bignumber.Fits 2 :=
    hfits (n := 2) (e := 0) (by norm_num) (by decide) (by decide) (by norm_num)
  have hquotient : Fraction.truncate (-15 / 2 / 2) = -3 := by decide +kernel
  have hfull : InFull Bignumber.exact (-3) :=
    lt_of_lt_of_le (show 3 < 10 ^ 1 by decide) (Nat.pow_le_pow_right (by decide) (by decide))
  obtain ⟨hfraction, hdecimal⟩ := remainders_take_signs 2 2 none
  obtain ⟨r, m, q, hr, hm, -, hrest, -, hq, -, hexact⟩ :=
    hdecimal (.finite true 75 (-1)) (.finite false 2 0) rfl rfl (hx ▸ hfx) (hy ▸ hfy)
      (by rw [hy]; norm_num) (by rw [hx, hy, hquotient]; exact hfull)
  have hr' : r = .finite true 15 (-1) := Except.ok.inj (hr.symm.trans (by decide +kernel))
  have hm' : m = .finite false 5 (-1) := Except.ok.inj (hm.symm.trans (by decide +kernel))
  rw [hx, hy] at hrest hq
  have hfq : Bignumber.Fits q := by
    obtain ⟨⟨k, hk⟩, hsmall, -⟩ := hq
    rw [abs_lt, abs_of_pos (by norm_num)] at hsmall
    have hlow : -20 < -75 - 20 * (k : Rat) := by linarith [hsmall.1]
    have hhigh : -75 - 20 * (k : Rat) < 20 := by linarith [hsmall.2]
    have hlow' : -20 < -75 - 20 * k := by exact_mod_cast hlow
    have hhigh' : -75 - 20 * k < 20 := by exact_mod_cast hhigh
    refine hfits (n := -75 - 20 * k) (e := -1) ?_ (by omega) (by decide) ?_
    · push_cast
      norm_num
      linarith
    · exact abs_le.mpr (by constructor <;> linarith [hsmall.1, hsmall.2])
  refine ⟨hfraction _ 2 (by norm_num), _, _, r, m, hr, hm, ?_, ?_, hrest, ?_⟩
  · rw [hr']
    decide +kernel
  · rw [hm']
    decide +kernel
  · rwa [hexact hfq]

theorem far_not_remainder {p : Nat} (hp : 1 ≤ p) (n : Int) :
    ¬ IsRemainder (10 ^ (-(p : Int))) (-10 ^ (p : Int)) (-10 ^ (p : Int)) n := by
  rintro ⟨⟨k, hk⟩, -, -⟩
  have hlow := tens_pos (-(p : Int))
  have hhigh : (10 : Rat) ^ (-(p : Int)) < 10 ^ (0 : Int) := tens_lt_iff.mpr (by omega)
  rw [zpow_natCast] at hk
  have hcast : (10 : Rat) ^ (-(p : Int)) = ((k * -10 ^ p + n : Int) : Rat) := by
    rw [hk]
    push_cast
    rfl
  rw [hcast] at hlow hhigh
  rw [zpow_zero] at hhigh
  have hlow' : 0 < k * -10 ^ p + n := by exact_mod_cast hlow
  have hhigh' : k * -10 ^ p + n < 1 := by exact_mod_cast hhigh
  omega

/-- The smallest and the largest power of ten leave a remainder with the sign of the divisor that
has too many digits for a decimal number. -/
theorem modulo_not_always_exact :
    let x : Decimal := .finite false 1 (-999999999999999999)
    let y : Decimal := .finite true 1 999999999999999999
    Bignumber.Fits x.toRat ∧ Bignumber.Fits y.toRat ∧ y.toRat ≠ 0 ∧
      InFull Bignumber.exact (Fraction.truncate (x.toRat / y.toRat)) ∧
      ∃ m, (Bignumber.arithmetic 2).modulo x y = .ok m ∧
        ¬ IsRemainder x.toRat y.toRat y.toRat m.toRat := by
  intro x y
  have hone : 1 ≤ Bignumber.exact := by decide
  have hdigits : 1 < 10 ^ Bignumber.exact := Nat.one_lt_pow (by decide) (by decide)
  have hx : x.toRat = 10 ^ (-(Bignumber.exact : Int)) := by
    show (Decimal.finite false 1 (-(Bignumber.exact : Int))).toRat = _
    simp [toRat, signed]
  have hy : y.toRat = -10 ^ (Bignumber.exact : Int) := by
    show (Decimal.finite true 1 (Bignumber.exact : Int)).toRat = _
    simp [toRat, signed]
  have hfx : Bignumber.Fits x.toRat :=
    .of_finite false hdigits (by decide +kernel) (by decide +kernel)
  have hfy : Bignumber.Fits y.toRat :=
    .of_finite true hdigits (by decide +kernel) (by decide +kernel)
  have hsmall : (10 : Rat) ^ (-(Bignumber.exact : Int)) < 10 ^ (Bignumber.exact : Int) :=
    tens_lt_iff.mpr (by omega)
  have hpos := tens_pos (-(Bignumber.exact : Int))
  have hlarge := tens_pos (Bignumber.exact : Int)
  have hy0 : y.toRat ≠ 0 := by
    rw [hy]
    exact (neg_neg_of_pos hlarge).ne
  have hquotient : x.toRat / y.toRat =
      -(10 ^ (-(Bignumber.exact : Int)) / 10 ^ (Bignumber.exact : Int)) := by
    rw [hx, hy, div_neg]
  have hlow := div_pos hpos hlarge
  have hhigh := (div_lt_one hlarge).mpr hsmall
  have htruncate : Fraction.truncate (x.toRat / y.toRat) = 0 := by
    rw [hquotient, Fraction.truncate_neg, Fraction.truncate_of_nonneg hlow.le,
      Int.floor_eq_zero_iff.mpr ⟨hlow.le, hhigh⟩, neg_zero]
  have hfloor : ⌊x.toRat / y.toRat⌋ = -1 := by
    rw [hquotient, Int.floor_eq_iff]
    push_cast
    constructor <;> linarith
  have hfull : InFull Bignumber.exact (Fraction.truncate (x.toRat / y.toRat)) := by
    rw [htruncate]
    exact Nat.pow_pos (by decide)
  obtain ⟨m, hm, hrounds⟩ := Bignumber.modulo_rounds 2 rfl rfl hfx hfy hy0 hfull
  rw [hfloor, hx, hy, Int.cast_neg, Int.cast_one, neg_mul_neg, mul_one] at hrounds
  refine ⟨hfx, hfy, hy0, hfull, m, hm, ?_⟩
  rw [hx, hy, hrounds.eq_of_far hone]
  exact far_not_remainder hone (-10 ^ Bignumber.exact)

end Abacus
