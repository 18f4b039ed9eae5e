import Abacus.Proofs.Exact.Integers
import Mathlib.Data.Nat.Factorization.Basic
import Mathlib.Data.Sign.Basic

/-! Remainders and powers of decimal numbers. If a power fits, so do all the powers below it: a
coefficient without zeros at its end keeps that property, so digits are never lost on the way. -/

namespace Abacus

open Number Decimal

namespace Fraction

theorem truncate_of_nonneg {x : Rat} (hx : 0 ≤ x) : truncate x = ⌊x⌋ := by
  rw [truncate, Int.tdiv_eq_ediv_of_nonneg (Rat.num_nonneg.mpr hx), Rat.floor_def']

theorem truncate_neg (x : Rat) : truncate (-x) = -truncate x := by
  simp [truncate]

theorem truncate_signed (s : Bool) (n d : Nat) :
    truncate ((signed s n : Rat) / d) = signed s (n / d) := by
  have hnat : truncate ((n : Rat) / d) = ((n / d : Nat) : Int) := by
    rw [truncate_of_nonneg (by positivity), floor_div]
  cases s with
  | false => simpa [signed] using hnat
  | true =>
    have hneg : ((signed true n : Int) : Rat) / d = -((n : Rat) / d) := by
      simp [signed, neg_div]
    rw [hneg, truncate_neg, hnat]
    rfl

end Fraction

namespace Decimal

/-- The coefficient of `c * 10 ^ e` on a finer grid. -/
def onGrid (c : Nat) (e g : Int) : Nat :=
  c * tenPow (e - g).toNat

theorem onGrid_value (s : Bool) (c : Nat) {e g : Int} (h : g ≤ e) :
    (signed s (onGrid c e g) : Rat) * 10 ^ g = signed s c * 10 ^ e := by
  rw [scale_down (signed s c : Rat) h, onGrid, tenPow_eq, signed_mul_natCast]
  push_cast
  rfl

theorem onGrid_magnitude (c : Nat) {e g : Int} (h : g ≤ e) :
    (onGrid c e g : Rat) * 10 ^ g = c * 10 ^ e :=
  onGrid_value false c h

theorem onGrid_ne_zero {c : Nat} (hc : c ≠ 0) (e g : Int) : onGrid c e g ≠ 0 :=
  Nat.mul_ne_zero hc (Nat.pow_pos (by decide)).ne'

/-- The remainder of two numbers on one grid. -/
theorem sub_mul_truncate (s t : Bool) (n m : Nat) (g : Int) :
    (signed s n : Rat) * 10 ^ g - signed t m * 10 ^ g *
        Fraction.truncate ((signed s n : Rat) * 10 ^ g / (signed t m * 10 ^ g)) =
      signed s (n % m) * 10 ^ g ∧
    (Fraction.truncate ((signed s n : Rat) * 10 ^ g / (signed t m * 10 ^ g))).natAbs = n / m := by
  have hquotient : (signed s n : Rat) * 10 ^ g / (signed t m * 10 ^ g) =
      (signed (s != t) n : Rat) / m := by
    rw [mul_div_mul_right _ _ (tens_pos g).ne']
    cases s <;> cases t <;> simp [signed, neg_div, div_neg]
  rw [hquotient, Fraction.truncate_signed, natAbs_signed]
  refine ⟨?_, rfl⟩
  have hmod : ((n % m : Nat) : Rat) = n - m * (n / m : Nat) := by
    have hcast : (n : Rat) = m * (n / m : Nat) + (n % m : Nat) := by
      exact_mod_cast (Nat.div_add_mod n m).symm
    linarith
  rw [signed_eq s (n % m), hmod, signed_eq, signed_eq, signed_eq]
  cases s <;> cases t <;> simp <;> ring

/-- A quotient that fits says how far the leading digits are apart. -/
theorem leading_sub_le {p c d : Nat} {e f g : Int} (hc : c ≠ 0) (hd : d ≠ 0) (he : g ≤ e)
    (hf : g ≤ f) (hq : onGrid c e g / onGrid d f g < 10 ^ p) :
    ¬ (p : Int) < leading c e - leading d f := by
  intro hfar
  have hpos := Nat.pos_of_ne_zero (onGrid_ne_zero hd f g)
  have hle : (10 ^ p * onGrid d f g : Nat) ≤ onGrid c e g := by
    have hreal : (10 : Rat) ^ (p : Int) * (d * 10 ^ f) ≤ c * 10 ^ e := by
      calc (10 : Rat) ^ (p : Int) * (d * 10 ^ f)
          ≤ 10 ^ (p : Int) * 10 ^ (leading d f + 1) :=
            mul_le_mul_of_nonneg_left (lt_tens_leading d f).le (tens_pos _).le
        _ = 10 ^ ((p : Int) + (leading d f + 1)) := (tens_add _ _).symm
        _ ≤ 10 ^ leading c e := tens_le (by omega)
        _ ≤ c * 10 ^ e := tens_leading_le hc e
    rw [← onGrid_magnitude c he, ← onGrid_magnitude d hf, zpow_natCast, ← mul_assoc] at hreal
    exact_mod_cast le_of_mul_le_mul_right hreal (tens_pos g)
  have hdiv := (Nat.le_div_iff_mul_le hpos).mpr hle
  omega

theorem remainderFinite_exact {p : Nat} {s : Bool} {c d : Nat} {e f : Int} (hd : d ≠ 0)
    (hq : onGrid c e (min e f) / onGrid d f (min e f) < 10 ^ p)
    (h : FitsAt p (signed s (onGrid c e (min e f) % onGrid d f (min e f)) * 10 ^ min e f)) :
    Represents (remainderFinite p s c e d f)
      (signed s (onGrid c e (min e f) % onGrid d f (min e f)) * 10 ^ min e f) := by
  have he := min_le_left e f
  have hf := min_le_right e f
  unfold remainderFinite
  dsimp only
  by_cases hc : c = 0
  · rw [if_pos hc]
    have hmod : onGrid c e (min e f) % onGrid d f (min e f) = 0 := by
      rw [onGrid, hc, Nat.zero_mul, Nat.zero_mod]
    have hz : (signed s 0 : Rat) * 10 ^ min e f = 0 := by cases s <;> simp [signed]
    rw [hmod, hz]
    exact rounded_zero p s _
  · rw [if_neg hc]
    have hcompare : compareMagnitude c e d f =
        compare (onGrid c e (min e f)) (onGrid d f (min e f)) := by
      rw [compareMagnitude_eq, ← onGrid_magnitude c he, ← onGrid_magnitude d hf,
        Fraction.order_mul_right (tens_pos _), Fraction.order_natCast]
    by_cases hlt : compareMagnitude c e d f = .lt
    · rw [if_pos hlt]
      rw [hcompare] at hlt
      rw [Nat.mod_eq_of_lt (Nat.compare_eq_lt.mp hlt), onGrid_value s c he] at h ⊢
      exact rounded_exact h
    · rw [if_neg hlt, if_neg (leading_sub_le hc hd he hf hq)]
      have hfew : ¬ p < digitCount (onGrid c e (min e f) / onGrid d f (min e f)) := by
        have hge : onGrid d f (min e f) ≤ onGrid c e (min e f) := by
          rw [hcompare] at hlt
          exact not_lt.mp (fun hless => hlt (Nat.compare_eq_lt.mpr hless))
        have hone : 1 ≤ onGrid c e (min e f) / onGrid d f (min e f) :=
          (Nat.one_le_div_iff (Nat.pos_of_ne_zero (onGrid_ne_zero hd f _))).mpr hge
        have hp : 0 < p := by
          by_contra hz
          rw [Nat.eq_zero_of_not_pos hz] at hq
          omega
        exact not_lt.mpr ((digitCount_le_iff hp).mpr hq)
      exact (if_neg hfew).symm ▸ rounded_exact h

/-- An integer of at most `precision` digits. -/
def InFull (precision : Nat) (n : Int) : Prop :=
  n.natAbs < 10 ^ precision

theorem remainder_exact {p : Nat} {x y : Decimal} (hx : x.isFinite = true) (hy : y.isFinite = true)
    (hy0 : y.toRat ≠ 0) (hq : InFull p (Fraction.truncate (x.toRat / y.toRat)))
    (h : FitsAt p (x.toRat - y.toRat * Fraction.truncate (x.toRat / y.toRat))) :
    Represents (remainder p x y) (x.toRat - y.toRat * Fraction.truncate (x.toRat / y.toRat)) := by
  cases x with
  | infinite | nan => cases hx
  | finite s c e =>
    cases y with
    | infinite | nan => cases hy
    | finite t d f =>
      have hd := coefficient_ne_zero hy0
      obtain ⟨hvalue, hcount⟩ :=
        sub_mul_truncate s t (onGrid c e (min e f)) (onGrid d f (min e f)) (min e f)
      rw [onGrid_value s c (min_le_left e f), onGrid_value t d (min_le_right e f)] at hvalue hcount
      simp only [toRat, remainder, InFull, if_neg hd] at hq h ⊢
      rw [hcount] at hq
      rw [hvalue] at h ⊢
      exact remainderFinite_exact hd hq h

theorem ne_zero_of_not_ten_dvd {a : Nat} (ha : ¬ 10 ∣ a) : a ≠ 0 := by
  rintro rfl
  exact ha (dvd_zero 10)

theorem not_ten_dvd_pow {a : Nat} (ha : ¬ 10 ∣ a) (n : Nat) : ¬ 10 ∣ a ^ n := by
  intro hd
  have htwo : 2 ∣ a := Nat.prime_two.dvd_of_dvd_pow ((show 2 ∣ 10 by decide).trans hd)
  have hfive : 5 ∣ a := Nat.prime_five.dvd_of_dvd_pow ((show 5 ∣ 10 by decide).trans hd)
  exact ha (Nat.Coprime.mul_dvd_of_dvd_of_dvd (show Nat.Coprime 2 5 by decide) htwo hfive)

theorem magnitude_pow (a : Nat) (e : Int) (n : Nat) :
    ((a : Rat) * 10 ^ e) ^ n = (a ^ n : Nat) * 10 ^ (e * n) := by
  rw [mul_pow, Nat.cast_pow, zpow_mul, zpow_natCast]

/-- A coefficient without zeros at its end has to fit as it is. -/
theorem FitsAt.reduced_pow {p a n : Nat} {e : Int} (ha : ¬ 10 ∣ a)
    (h : FitsAt p (((a : Rat) * 10 ^ e) ^ n)) : a ^ n < 10 ^ p ∧ tiniest p ≤ e * n := by
  rw [magnitude_pow] at h
  obtain ⟨k, hk, hlt, htiny⟩ := h.grid
  have hk0 : k = 0 := by
    by_contra hne
    exact not_ten_dvd_pow ha n ((dvd_pow_self 10 hne).trans hk)
  subst hk0
  exact ⟨by simpa using hlt, by simpa using htiny⟩

/-- Every finite number but zero has such a coefficient. -/
theorem exists_reduced {x : Decimal} (hx : x.isFinite = true) (h0 : x.toRat ≠ 0) :
    ∃ (a : Nat) (e : Int), ¬ 10 ∣ a ∧ |x.toRat| = a * 10 ^ e := by
  cases x with
  | infinite | nan => cases hx
  | finite s c e =>
    have hc := coefficient_ne_zero h0
    obtain ⟨k, a, ha, rfl⟩ := Nat.exists_eq_pow_mul_and_not_dvd hc 10 (by decide)
    refine ⟨a, e + k, ha, ?_⟩
    rw [abs_toRat_finite, tens_add, zpow_natCast]
    push_cast
    ring

theorem FitsAt.pow_of_le {p n k : Nat} {x : Decimal} (hx : x.isFinite = true) (hk : 1 ≤ k)
    (hkn : k ≤ n) (h : FitsAt p (x.toRat ^ n)) : FitsAt p (x.toRat ^ k) := by
  by_cases h0 : x.toRat = 0
  · rwa [h0, zero_pow (by omega)] at h ⊢
  · obtain ⟨a, e, ha, hvalue⟩ := exists_reduced hx h0
    have hfits := h.abs
    have hrange := hfits.range
    rw [abs_pow, hvalue] at hfits hrange
    obtain ⟨hlt, htiny⟩ := hfits.reduced_pow ha
    apply FitsAt.of_abs
    rw [abs_pow, hvalue, magnitude_pow]
    have hpos : 0 < a := Nat.pos_of_ne_zero (ne_zero_of_not_ten_dvd ha)
    refine ⟨(a ^ k : Nat), e * k, by push_cast; rfl, ?_, ?_, ?_⟩
    · rw [Int.natAbs_natCast]
      exact lt_of_le_of_lt (Nat.pow_le_pow_right hpos hkn) hlt
    · have hzero : tiniest p ≤ 0 := by
        unfold tiniest limit
        omega
      by_cases he : 0 ≤ e
      · exact hzero.trans (by positivity)
      · have hle : e * n ≤ e * k :=
          mul_le_mul_of_nonpos_left (by exact_mod_cast hkn) (by omega)
        omega
    · rw [← magnitude_pow, abs_of_nonneg (by positivity)]
      have hnonneg : (0 : Rat) ≤ a * 10 ^ e := by positivity
      rw [abs_of_nonneg (by positivity)] at hrange
      rcases le_total (1 : Rat) (a * 10 ^ e) with hone | hone
      · exact lt_of_le_of_lt (pow_le_pow_right₀ hone hkn) hrange
      · have hten : (1 : Rat) < 10 ^ ((limit : Int) + 1) := by
          rw [← zpow_zero (10 : Rat)]
          exact tens_lt_iff.mpr (by omega)
        exact lt_of_le_of_lt (pow_le_one₀ hnonneg hone) hten

/-- Only small powers of a number other than 0, 1 and -1 fit. -/
theorem FitsAt.exponent_le {p n : Nat} {x : Decimal} (hx : x.isFinite = true) (h0 : x.toRat ≠ 0)
    (h1 : |x.toRat| ≠ 1) (h : FitsAt p (x.toRat ^ n)) : n ≤ limit + 4 * p := by
  obtain ⟨a, e, ha, hvalue⟩ := exists_reduced hx h0
  have hfits := h.abs
  have hrange := hfits.range
  rw [abs_pow, hvalue] at hfits hrange
  obtain ⟨hlt, htiny⟩ := hfits.reduced_pow ha
  have hpos : 0 < a := Nat.pos_of_ne_zero (ne_zero_of_not_ten_dvd ha)
  by_cases hone : a = 1
  · subst hone
    rw [hvalue, Nat.cast_one, one_mul] at h1
    rw [Nat.cast_one, one_mul, ← zpow_natCast, ← zpow_mul, abs_of_pos (tens_pos _)] at hrange
    have hsmall := tens_lt_iff.mp hrange
    rcases lt_trichotomy e 0 with he | rfl | he
    · have hle : e * n ≤ -(n : Int) := by nlinarith
      unfold tiniest at htiny
      omega
    · exact absurd (zpow_zero _) h1
    · have hle : (n : Int) ≤ e * n := by nlinarith
      omega
  · have htwo : 2 ^ n < 2 ^ (4 * p) := by
      calc 2 ^ n ≤ a ^ n := Nat.pow_le_pow_left (by omega) n
        _ < 10 ^ p := hlt
        _ ≤ 16 ^ p := Nat.pow_le_pow_left (by decide) p
        _ = 2 ^ (4 * p) := by
            rw [pow_mul]
            norm_num
    have hexp := (Nat.pow_lt_pow_iff_right (by decide)).mp htwo
    omega

theorem powerSteps_exact {w : Nat} {x : Decimal} (hx : x.isFinite = true) {fuel n : Nat}
    (hn : 1 ≤ n) (hfuel : n < 2 ^ fuel)
    (h : ∀ k, 1 ≤ k → k ≤ n → FitsAt w (x.toRat ^ k)) :
    Represents (powerSteps w x fuel n) (x.toRat ^ n) := by
  induction fuel generalizing n with
  | zero => omega
  | succ fuel ih =>
    unfold powerSteps
    split
    · next hle =>
      have hn1 : n = 1 := by omega
      rw [hn1, pow_one]
      exact ⟨hx, rfl⟩
    · next hle =>
      have hhalf : Represents (powerSteps w x fuel (n / 2)) (x.toRat ^ (n / 2)) := by
        refine ih (by omega) ?_ (fun k hk hkn => h k hk (by omega))
        rw [pow_succ] at hfuel
        omega
      have hsquare : Represents
          (multiply w (powerSteps w x fuel (n / 2)) (powerSteps w x fuel (n / 2)))
          (x.toRat ^ (n / 2 + n / 2)) := by
        have hfit := h (n / 2 + n / 2) (by omega) (by omega)
        rw [pow_add, ← hhalf.value] at hfit ⊢
        exact multiply_exact hhalf.finite hhalf.finite hfit
      dsimp only
      split
      · have hsplit : x.toRat ^ n = x.toRat ^ (n / 2 + n / 2) * x.toRat := by
          rw [← pow_succ]
          congr 1
          omega
        have hfit := h n hn le_rfl
        rw [hsplit, ← hsquare.value] at hfit ⊢
        exact multiply_exact hsquare.finite hx hfit
      · have heven : n / 2 + n / 2 = n := by omega
        rwa [heven] at hsquare

section NaturalExponent

variable {d n : Nat} {f : Int}

theorem toInt_of_natCast (h : (Decimal.finite false d f).toRat = n) :
    (Decimal.finite false d f).toInt = n := by
  by_cases hf : 0 ≤ f
  · rw [toRat_of_nonneg false d hf] at h
    exact_mod_cast h
  · have hd := coefficient_eq (by omega) (show (d : Rat) * 10 ^ f = n from h)
    rw [toInt, if_neg hf, tenPow_eq, hd, Nat.mul_div_cancel _ (Nat.pow_pos (by decide))]
    rfl

theorem isOdd_of_natCast (h : (Decimal.finite false d f).toRat = n) :
    (Decimal.finite false d f).isOdd = decide (n % 2 = 1) := by
  by_cases hf : 0 < f
  · have hint := toInt_of_natCast h
    rw [toInt, if_pos hf.le, tenPow_eq] at hint
    have hn : d * 10 ^ f.toNat = n := Int.ofNat.inj hint
    have hten : 10 ∣ n := by
      rw [← hn]
      exact Dvd.dvd.mul_left (dvd_pow_self 10 (by omega)) d
    have heven : ¬ n % 2 = 1 := by omega
    simp [isOdd, hf, heven]
  · have hd := coefficient_eq (by omega) (show (d : Rat) * 10 ^ f = n from h)
    simp only [isOdd, if_neg hf, tenPow_eq]
    rw [hd, Nat.mul_div_cancel _ (Nat.pow_pos (by decide))]
    rfl

theorem adjusted_le_of_natCast (hd : d ≠ 0) (h : (Decimal.finite false d f).toRat = n)
    (hn : n ≤ limit + 4 * limit) : ¬ 40 < (Decimal.finite false d f).adjusted := by
  intro hlt
  have hlow := tens_leading_le hd f
  have hvalue : (d : Rat) * 10 ^ f = n := h
  have hpow : (10 : Rat) ^ (41 : Int) ≤ 10 ^ leading d f := tens_le hlt
  have hbound : (n : Rat) ≤ 5 * 999999999999999999 := by
    have hnat : n ≤ 5 * 999999999999999999 := by
      unfold limit at hn
      omega
    exact_mod_cast hnat
  rw [hvalue] at hlow
  norm_num at hpow
  linarith

end NaturalExponent

theorem lt_two_pow_bitLength (n : Nat) : n < 2 ^ bitLength n := by
  unfold bitLength
  split
  · omega
  · exact Nat.lt_log2_self

theorem pow_of_abs_eq_one {q : Rat} (h : |q| = 1) (n : Nat) :
    q ^ n = if decide (q < 0) && decide (n % 2 = 1) then -1 else 1 := by
  rcases eq_or_eq_neg_of_abs_eq h with rfl | rfl
  · norm_num
  · by_cases hn : n % 2 = 1
    · simp [hn, (Nat.odd_iff.mpr hn).neg_one_pow]
    · simp [hn, (Nat.even_iff.mpr (by omega : n % 2 = 0)).neg_one_pow]

theorem isNegative_eq {x : Decimal} (hx : x.isFinite = true) (h0 : x.toRat ≠ 0) :
    x.isNegative = decide (x.toRat < 0) := by
  cases x with
  | infinite | nan => cases hx
  | finite s c e =>
    have hnonneg : (0 : Rat) ≤ c * 10 ^ e := by positivity
    rw [toRat_eq] at h0 ⊢
    cases s with
    | false => simp [isNegative, hnonneg.not_gt]
    | true =>
      have hpos : (0 : Rat) < c * 10 ^ e := hnonneg.lt_of_ne (fun hz => h0 (by simp [← hz]))
      simp [isNegative, hpos]

theorem isZero_iff {x : Decimal} (hx : x.isFinite = true) : x.isZero = true ↔ x.toRat = 0 := by
  cases x with
  | infinite | nan => cases hx
  | finite s c e =>
    have habs := abs_toRat_finite s c e
    constructor
    · intro h
      obtain rfl : c = 0 := by simpa [isZero] using h
      rw [Nat.cast_zero, zero_mul] at habs
      exact abs_eq_zero.mp habs
    · intro h
      rw [h, abs_zero] at habs
      have hc := (mul_eq_zero.mp habs.symm).resolve_right (tens_pos e).ne'
      simpa [isZero] using hc

theorem isIntegral_of_natCast {y : Decimal} {n : Nat} (hy : y.isFinite = true)
    (hvalue : y.toRat = n) : y.isIntegral = true := by
  rw [isIntegral_iff hy, hvalue]
  exact Rat.den_natCast n

theorem positive_of_natCast {y : Decimal} {n : Nat} (hy : y.isFinite = true)
    (hvalue : y.toRat = n) (hn : n ≠ 0) : y.isZero = false ∧ y.isNegative = false := by
  have h0 : y.toRat ≠ 0 := by
    rw [hvalue]
    exact Nat.cast_ne_zero.mpr hn
  constructor
  · rw [Bool.eq_false_iff]
    exact fun hz => h0 ((isZero_iff hy).mp hz)
  · rw [isNegative_eq hy h0, hvalue]
    simp

theorem powerInt_exact {x : Decimal} {d n : Nat} {f : Int} (hx : x.isFinite = true)
    (hvalue : (Decimal.finite false d f).toRat = n) (hn : n ≠ 0)
    (h : FitsAt limit (x.toRat ^ n)) :
    Represents (powerInt limit x (.finite false d f)) (x.toRat ^ n) := by
  have hcount : (Decimal.finite false d f).toInt.natAbs = n := by
    rw [toInt_of_natCast hvalue, Int.natAbs_natCast]
  simp only [powerInt, hcount, isNegative, Bool.false_eq_true, if_false]
  have hsteps : Represents (powerSteps (limit + ((Decimal.finite false d f).adjusted + 3).toNat) x
      (bitLength n) n) (x.toRat ^ n) :=
    powerSteps_exact hx (Nat.one_le_iff_ne_zero.mpr hn) (lt_two_pow_bitLength n)
      (fun k hk hkn => (h.pow_of_le hx hk hkn).mono (Nat.le_add_right _ _))
  rw [← hsteps.value] at h ⊢
  exact round_exact hsteps.finite h

theorem sameValue_one_iff (s : Bool) (c : Nat) (e : Int) :
    (Decimal.finite s c e).magnitude.sameValue one = true ↔ |(Decimal.finite s c e).toRat| = 1 := by
  rw [sameValue_iff rfl rfl, abs_toRat_finite]
  simp [magnitude, one, ofNat, toRat, signed]

/-- A power with a natural exponent that fits is exact. -/
theorem power_exact {x y : Decimal} {n : Nat} (hx : x.isFinite = true) (hy : y.isFinite = true)
    (hvalue : y.toRat = n) (hn : n ≠ 0) (h : FitsAt limit (x.toRat ^ n)) :
    Represents (power limit x y) (x.toRat ^ n) := by
  have hyint := isIntegral_of_natCast hy hvalue
  obtain ⟨hyzero, hyneg⟩ := positive_of_natCast hy hvalue hn
  cases y with
  | infinite | nan => cases hy
  | finite t d f =>
    have ht : t = false := hyneg
    subst ht
    have hd : d ≠ 0 := by simpa [isZero] using hyzero
    have hodd := isOdd_of_natCast hvalue
    cases x with
    | infinite | nan => cases hx
    | finite s c e =>
      simp only [power, isNaN, hyint, hyneg, hyzero, hodd, Bool.or_self, Bool.and_true,
        Bool.not_true, Bool.and_false, Bool.false_eq_true, if_false]
      by_cases h0 : (Decimal.finite s c e).toRat = 0
      · rw [if_pos ((isZero_iff hx).mpr h0), h0, zero_pow hn]
        refine ⟨rfl, ?_⟩
        rw [toRat_eq]
        simp
      · rw [if_neg (fun hz => h0 ((isZero_iff hx).mp hz)), isNegative_eq hx h0]
        split
        · next hone =>
          rw [pow_of_abs_eq_one ((sameValue_one_iff s c e).mp hone)]
          refine ⟨rfl, ?_⟩
          rw [toRat_eq]
          simp
        · next hone =>
          have habs : |(Decimal.finite s c e).toRat| ≠ 1 :=
            fun heq => hone ((sameValue_one_iff s c e).mpr heq)
          have hsmall := adjusted_le_of_natCast hd hvalue (h.exponent_le hx h0 habs)
          simp only [powerFinite, outOfRange?, if_neg hsmall, hyint, if_true]
          exact powerInt_exact hx hvalue hn h

end Decimal

/-- What is left of `x` if a multiple of `y` is taken away, less than `y` in magnitude, and with the
sign of `s` unless nothing is left. -/
structure IsRemainder (x y s r : Rat) : Prop where
  multiple : ∃ k : Int, x = k * y + r
  small : |r| < |y|
  sign : r = 0 ∨ SignType.sign r = SignType.sign s

namespace Fraction

/-- What cutting off takes away has the sign of the number. -/
theorem sub_truncate (q : Rat) : q - truncate q = SignType.sign q * Int.fract |q| := by
  rcases lt_trichotomy q 0 with hq | rfl | hq
  · have hneg := truncate_neg q
    rw [truncate_of_nonneg (neg_nonneg.mpr hq.le)] at hneg
    have hcast : (truncate q : Rat) = -⌊-q⌋ := by rw [hneg]; push_cast; ring
    rw [sign_neg hq, abs_of_neg hq, Int.fract, hcast, SignType.coe_neg, SignType.coe_one]
    ring
  · simp [truncate]
  · rw [sign_pos hq, abs_of_pos hq, truncate_of_nonneg hq.le, SignType.coe_one, one_mul, Int.fract]

/-- The remainder to the quotient without its fractional part, which is not larger than the
dividend. -/
theorem isRemainder_truncate (x : Rat) {y : Rat} (hy : y ≠ 0) :
    IsRemainder x y x (x - y * truncate (x / y)) ∧ |x - y * truncate (x / y)| ≤ |x| := by
  have hrest : x - y * truncate (x / y) = SignType.sign (x / y) * Int.fract |x / y| * y := by
    rw [← sub_truncate, sub_mul, div_mul_cancel₀ x hy, mul_comm]
  have hnonneg := Int.fract_nonneg |x / y|
  have hsign : |((SignType.sign (x / y) : SignType) : Rat)| ≤ 1 := by
    cases SignType.sign (x / y) <;> simp
  have habs : |x - y * truncate (x / y)| ≤ Int.fract |x / y| * |y| := by
    rw [hrest, abs_mul, abs_mul, abs_of_nonneg hnonneg]
    exact mul_le_mul_of_nonneg_right (mul_le_of_le_one_left hnonneg hsign) (abs_nonneg y)
  refine ⟨⟨⟨truncate (x / y), by ring⟩, ?_, ?_⟩, ?_⟩
  · exact habs.trans_lt (mul_lt_of_lt_one_left (abs_pos.mpr hy) (Int.fract_lt_one _))
  · rcases hnonneg.eq_or_lt with hzero | hpos
    · exact .inl (by rw [hrest, ← hzero, mul_zero, zero_mul])
    · refine .inr ?_
      have hcancel : SignType.sign (x / y) * SignType.sign y = SignType.sign x := by
        rw [← sign_mul, div_mul_cancel₀ x hy]
      have htwice : SignType.sign ((SignType.sign (x / y) : SignType) : Rat) =
          SignType.sign (x / y) := by
        cases SignType.sign (x / y) <;> simp
      rw [hrest, sign_mul, sign_mul, sign_pos hpos, htwice, mul_one, hcancel]
  · have hfloor : (0 : Rat) ≤ ⌊|x / y|⌋ := by
      exact_mod_cast Int.floor_nonneg.mpr (abs_nonneg (x / y))
    have hpart : Int.fract |x / y| ≤ |x / y| := by
      rw [Int.fract]
      linarith
    calc |x - y * truncate (x / y)| ≤ Int.fract |x / y| * |y| := habs
      _ ≤ |x / y| * |y| := mul_le_mul_of_nonneg_right hpart (abs_nonneg y)
      _ = |x| := by rw [← abs_mul, div_mul_cancel₀ x hy]

end Fraction

/-- A remainder has no more digits than one of the numbers it is left of. -/
theorem Decimal.FitsAt.remainder {p : Nat} {x y : Rat} (hx : FitsAt p x) (hy : FitsAt p y)
    (n : Int) (hless : |x - y * n| < |y|) (hle : |x - y * n| ≤ |x|) : FitsAt p (x - y * n) := by
  have hrange := hle.trans_lt hx.range
  obtain ⟨a, e, ha, hadigits, hae, -⟩ := hx
  obtain ⟨b, f, hb, hbdigits, hbf, -⟩ := hy
  -- a multiple of a smaller power has at most as many digits as the larger number on that grid
  have hgrid : ∀ {c m g : Int}, |x - y * n| ≤ |(c : Rat) * 10 ^ g| → x - y * n = m * 10 ^ g →
      c.natAbs < 10 ^ p → tiniest p ≤ g → FitsAt p (x - y * n) := by
    intro c m g hbound hvalue hdigits hg
    refine ⟨m, g, hvalue, lt_of_le_of_lt ?_ hdigits, hg, hrange⟩
    rw [hvalue, abs_mul, abs_mul] at hbound
    have hcast := le_of_mul_le_mul_right hbound (abs_pos.mpr (tens_pos g).ne')
    rw [← Int.cast_abs, ← Int.cast_abs, Int.cast_le, Int.abs_eq_natAbs, Int.abs_eq_natAbs] at hcast
    exact_mod_cast hcast
  rcases le_total e f with hef | hfe
  · refine hgrid (m := a - b * (10 ^ (f - e).toNat : Nat) * n) (ha ▸ hle) ?_ hadigits hae
    rw [ha, hb, scale_down (b : Rat) hef]
    push_cast
    ring
  · refine hgrid (m := a * (10 ^ (e - f).toNat : Nat) - b * n) (hb ▸ hless.le) ?_ hbdigits hbf
    rw [ha, hb, scale_down (a : Rat) hfe]
    push_cast
    ring

end Abacus
