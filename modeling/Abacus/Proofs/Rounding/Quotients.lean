import Abacus.Proofs.Exact.Powers
import Abacus.Proofs.Rounding.Places
import Mathlib.Data.Int.Log

/-! Quotients of decimals. The exact quotient is rounded half to even to some digits first and then
half up to the places that are kept: it is raised by half of the last digit worked out, and then
rounded half up. -/

namespace Abacus

open Number

namespace Decimal

variable {p c d : Nat} {e f L : Int}

/-- The part of a quotient that is worked out has more digits than those that are kept. -/
theorem tenPow_le_quotient (p : Nat) (hc : c ≠ 0) (hd : d ≠ 0) :
    10 ^ p ≤ c * 10 ^ (p + 2 + digitCount d - digitCount c) / d := by
  have hpos := digitCount_pos c
  rw [Nat.le_div_iff_mul_le (Nat.pos_of_ne_zero hd)]
  calc 10 ^ p * d ≤ 10 ^ p * 10 ^ digitCount d :=
        Nat.mul_le_mul_left _ (lt_tenPow_digitCount d).le
    _ = 10 ^ (p + digitCount d) := (pow_add _ _ _).symm
    _ ≤ 10 ^ (digitCount c - 1 + (p + 2 + digitCount d - digitCount c)) :=
        Nat.pow_le_pow_right (by decide) (by omega)
    _ = 10 ^ (digitCount c - 1) * 10 ^ (p + 2 + digitCount d - digitCount c) := pow_add _ _ _
    _ ≤ c * 10 ^ (p + 2 + digitCount d - digitCount c) :=
        Nat.mul_le_mul_right _ (tenPow_le_of_ne_zero hc)

/-- A number between two points of a grid, and powers of ten on that grid. -/
theorem tens_between {g : Int} {k : Nat} {q q' : Rat} (hk : k ≠ 0)
    (hq : k * 10 ^ g < q ∧ q < (k + 1) * 10 ^ g) (hq' : k * 10 ^ g < q' ∧ q' < (k + 1) * 10 ^ g)
    (hlow : (10 : Rat) ^ L ≤ q) (hhigh : q < 10 ^ (L + 1)) :
    (10 : Rat) ^ L ≤ q' ∧ q' < 10 ^ (L + 1) := by
  have hgL : g ≤ L := by
    have hone : (10 : Rat) ^ g ≤ k * 10 ^ g :=
      le_mul_of_one_le_left (tens_pos g).le (by exact_mod_cast Nat.one_le_iff_ne_zero.mpr hk)
    have hlt := tens_lt_iff.mp (lt_of_le_of_lt hone (hq.1.trans hhigh))
    omega
  rw [tens_on_grid hgL] at hlow ⊢
  rw [tens_on_grid (show g ≤ L + 1 by omega)] at hhigh ⊢
  constructor
  · have hlt : ((10 ^ (L - g).toNat : Nat) : Rat) < k + 1 :=
      lt_of_mul_lt_mul_right (lt_of_le_of_lt hlow hq.2) (tens_pos g).le
    have hle : 10 ^ (L - g).toNat ≤ k := Nat.lt_add_one_iff.mp (by exact_mod_cast hlt)
    exact (mul_le_mul_of_nonneg_right (Nat.cast_le.mpr hle) (tens_pos g).le).trans hq'.1.le
  · have hlt : (k : Rat) < (10 ^ (L + 1 - g).toNat : Nat) :=
      lt_of_mul_lt_mul_right (hq.1.trans hhigh) (tens_pos g).le
    have hle : ((k : Rat) + 1) ≤ (10 ^ (L + 1 - g).toNat : Nat) := by
      exact_mod_cast Nat.cast_lt.mp hlt
    exact lt_of_lt_of_le hq'.2 (mul_le_mul_of_nonneg_right hle (tens_pos g).le)

theorem dropZeros_value (bits extra c : Nat) (e : Int) :
    ((dropZeros bits extra c e).1 : Rat) * 10 ^ (dropZeros bits extra c e).2 = c * 10 ^ e := by
  induction bits generalizing extra c e with
  | zero => rfl
  | succ bits ih =>
    rw [dropZeros]
    generalize twoPow bits = k
    split
    · next hk =>
      rw [tenPow_eq] at hk ⊢
      obtain ⟨d, rfl⟩ := Nat.dvd_of_mod_eq_zero hk.2
      rw [ih, Nat.mul_div_cancel_left _ (Nat.pow_pos (by decide)), tens_add, zpow_natCast]
      push_cast
      ring
    · exact ih extra c e

theorem dropZeros_tenPow {bits k : Nat} (hk : k < twoPow bits) (c : Nat) (e : Int) :
    dropZeros bits k (c * 10 ^ k) (e - k) = (c, e) := by
  induction bits generalizing k with
  | zero =>
    obtain rfl : k = 0 := Nat.lt_one_iff.mp hk
    simp [dropZeros]
  | succ bits ih =>
    rw [dropZeros]
    rw [show twoPow (bits + 1) = twoPow bits * 2 from rfl] at hk
    generalize twoPow bits = half at hk ih ⊢
    by_cases hhalf : half ≤ k
    · have hten : 0 < tenPow half := Nat.pow_pos (by decide)
      have hsplit : c * 10 ^ k = c * 10 ^ (k - half) * tenPow half := by
        rw [tenPow_eq, mul_assoc, ← pow_add, Nat.sub_add_cancel hhalf]
      have he : e - k + half = e - (k - half : Nat) := by omega
      rw [hsplit, if_pos ⟨hhalf, Nat.mul_mod_left _ _⟩,
        Nat.mul_div_cancel _ hten, he, ih (by omega)]
    · rw [if_neg (fun h => hhalf h.1), ih (by omega)]

/-- The mark for what was cut off stands for any number between the same points of the grid, as long
as the part that is known has more digits than are kept. -/
theorem roundedSticky_even {k : Nat} {g : Int} {q : Rat} (hp : 0 < p) (s : Bool) (extra : Nat)
    (hmany : 10 ^ p ≤ k) (hq : k * 10 ^ g < q ∧ q < (k + 1) * 10 ^ g) (hlow : (10 : Rat) ^ L ≤ q)
    (hhigh : q < 10 ^ (L + 1)) (hL : L < limit) :
    ∃ m f, roundedSticky p s k g extra true = .finite s m f ∧
      RoundsToEven (10 ^ lastPlace p L) q (m * 10 ^ f) := by
  have hg := tens_pos g
  have hmark : ((k * 10 + 1 : Nat) : Rat) * 10 ^ (g - 1) = (k + 1 / 10) * 10 ^ g := by
    rw [tens_sub_one]
    push_cast
    ring
  have hq' : (k : Rat) * 10 ^ g < (k * 10 + 1 : Nat) * 10 ^ (g - 1) ∧
      ((k * 10 + 1 : Nat) : Rat) * 10 ^ (g - 1) < (k + 1) * 10 ^ g := by
    rw [hmark]
    constructor
    · exact mul_lt_mul_of_pos_right (by linarith) hg
    · exact mul_lt_mul_of_pos_right (by linarith) hg
  have hplace : g < lastPlace p L := by
    have hle : (10 : Rat) ^ ((p : Int) + g) ≤ k * 10 ^ g := by
      rw [tens_add, zpow_natCast]
      exact mul_le_mul_of_nonneg_right (by exact_mod_cast hmany) hg.le
    have hlt := tens_lt_iff.mp (lt_of_le_of_lt hle (hq.1.trans hhigh))
    unfold lastPlace
    omega
  have hk : k ≠ 0 := by
    have hten : 0 < 10 ^ p := by positivity
    omega
  obtain ⟨hlow', hhigh'⟩ := tens_between hk hq hq' hlow hhigh
  obtain ⟨m, f, hround, heven⟩ := rounded_even hp s hlow' hhigh' hL
  refine ⟨m, f, by rw [roundedSticky, if_pos rfl, hround], ?_⟩
  exact heven.between hplace (k := k) (by exact_mod_cast hq) (by exact_mod_cast hq')

theorem cut_between {n : Nat} (hd : d ≠ 0) (hr : n % d ≠ 0) (g : Int) :
    ((n / d : Nat) : Rat) * 10 ^ g < n / d * 10 ^ g ∧
      (n : Rat) / d * 10 ^ g < ((n / d : Nat) + 1) * 10 ^ g := by
  have hdpos : (0 : Rat) < d := Nat.cast_pos.mpr (Nat.pos_of_ne_zero hd)
  have hcut : (0 : Rat) < (n % d : Nat) / d :=
    div_pos (Nat.cast_pos.mpr (Nat.pos_of_ne_zero hr)) hdpos
  have hless : ((n % d : Nat) : Rat) / d < 1 :=
    (div_lt_one hdpos).mpr (Nat.cast_lt.mpr (Nat.mod_lt n (Nat.pos_of_ne_zero hd)))
  rw [div_eq_add n (Nat.pos_of_ne_zero hd)]
  constructor
  · exact mul_lt_mul_of_pos_right (by linarith) (tens_pos g)
  · exact mul_lt_mul_of_pos_right (by linarith) (tens_pos g)

/-- The quotient of two magnitudes is rounded half to even. -/
theorem divideFinite_even (hp : 0 < p) (s t : Bool) (hc : c ≠ 0) (hd : d ≠ 0)
    (hlow : (10 : Rat) ^ L ≤ c * 10 ^ e / (d * 10 ^ f))
    (hhigh : (c : Rat) * 10 ^ e / (d * 10 ^ f) < 10 ^ (L + 1)) (hL : L < limit) :
    ∃ k g, divideFinite p s c e t d f = .finite (s != t) k g ∧
      RoundsToEven (10 ^ lastPlace p L) (c * 10 ^ e / (d * 10 ^ f)) (k * 10 ^ g) := by
  have hmany := tenPow_le_quotient p hc hd
  rw [divideFinite, if_neg hc]
  dsimp only [tenPow_eq]
  generalize p + 2 + digitCount d - digitCount c = shift at *
  have hquotient : (c : Rat) * 10 ^ e / (d * 10 ^ f) =
      ((c * 10 ^ shift : Nat) : Rat) / d * 10 ^ (e - f - shift) := by
    have hten : (10 : Rat) ^ (e - f - shift) = 10 ^ e / 10 ^ f / 10 ^ shift := by
      rw [zpow_sub₀ (by norm_num), zpow_sub₀ (by norm_num), zpow_natCast]
    have hne := (tens_pos f).ne'
    rw [hten]
    push_cast
    field_simp
  rw [hquotient] at hlow hhigh ⊢
  generalize c * 10 ^ shift = n at *
  by_cases hr : n % d = 0
  · have hexact : (n : Rat) / d = (n / d : Nat) := by
      rw [div_eq_add n (Nat.pos_of_ne_zero hd), hr]
      simp
    rw [hexact] at hlow hhigh ⊢
    simp only [hr, roundedSticky, bne_self_eq_false, Bool.false_eq_true, if_false]
    rw [← dropZeros_value (shift.log2 + 1) shift] at hlow hhigh ⊢
    exact rounded_even hp _ hlow hhigh hL
  · rw [bne_iff_ne.mpr hr]
    exact roundedSticky_even hp _ _ hmany (cut_between hd hr _) hlow hhigh hL

/-- A number that fits is divided by one without a change of its digits. -/
theorem divideFinite_one {s : Bool} (hc : c ≠ 0) (hcount : digitCount c ≤ p) (hlow : tiniest p ≤ e)
    (hhigh : leading c e ≤ limit) : divideFinite p s c e false 1 0 = .finite s c e := by
  simp only [divideFinite, if_neg hc, tenPow_eq, Nat.div_one, Nat.mod_one, bne_self_eq_false,
    roundedSticky, Bool.false_eq_true, if_false, Bool.bne_false, sub_zero]
  have hdrop : (max ((digitCount c : Int) - p) (tiniest p - e)).toNat = 0 := by omega
  rw [dropZeros_tenPow Nat.lt_log2_self, rounded, if_neg hc]
  simp only [hdrop, if_pos]
  rw [if_neg (by omega), bounded, Nat.cast_zero, add_zero, if_neg (by omega)]

theorem quotient_pos (hc : c ≠ 0) (hd : d ≠ 0) : (0 : Rat) < c * 10 ^ e / (d * 10 ^ f) :=
  div_pos (mul_pos (Nat.cast_pos.mpr (Nat.pos_of_ne_zero hc)) (tens_pos e))
    (mul_pos (Nat.cast_pos.mpr (Nat.pos_of_ne_zero hd)) (tens_pos f))

/-- The magnitude and the sign of a quotient. -/
theorem toRat_div (s t : Bool) (hc : c ≠ 0) (hd : d ≠ 0) :
    |(Decimal.finite s c e).toRat / (Decimal.finite t d f).toRat| = c * 10 ^ e / (d * 10 ^ f) ∧
      ((Decimal.finite s c e).toRat / (Decimal.finite t d f).toRat < 0 ↔ (s != t) = true) := by
  refine ⟨by rw [abs_div, abs_toRat_finite, abs_toRat_finite], ?_⟩
  rw [toRat_eq, toRat_eq]
  have hpos := quotient_pos (e := e) (f := f) hc hd
  cases s <;> cases t <;> simp [neg_div, div_neg, hpos, hpos.le]

end Decimal

namespace Bignumber

open Decimal

variable {places c d : Nat} {e f : Int} {x y : Decimal}

theorem working_of_le {digits : Int} (hpos : 1 ≤ digits) (h : digits ≤ limit) :
    ∃ p : Nat, (p : Int) = digits ∧ working digits = .ok p := by
  refine ⟨(max digits 1).toNat, by omega, ?_⟩
  rw [working, if_pos h]

theorem working_of_lt {digits : Int} (h : limit < digits) :
    working digits = .error .tooManyDigits := by
  rw [working, if_neg (not_le.mpr h)]

/-- Up to this many places the host can represent the last of them. -/
def mostPlaces : Nat := 1000026

theorem rounded_eq_quantized (h : places ≤ mostPlaces) (x : Decimal) :
    rounded places x = x.quantized (-places) := by
  have hquantum : quantum places = -places := max_eq_left (by unfold mostPlaces at h; omega)
  cases x with
  | infinite | nan => rfl
  | finite s c e =>
    by_cases he : e < -(places : Int)
    · simp [rounded, isFinite, exponent, he, hquantum]
    · simp [rounded, isFinite, exponent, he, quantized, not_lt.mp he]

theorem rounded_eq_leastPlace (h : mostPlaces ≤ places) {s : Bool} (he : e < -(places : Int)) :
    rounded places (.finite s c e) = quantized (-mostPlaces : Int) (.finite s c e) := by
  have hquantum : quantum places = -(mostPlaces : Int) :=
    max_eq_right (by unfold mostPlaces at h; omega)
  simp [rounded, isFinite, exponent, he, hquantum]

/-- Half a unit of the last digit that is worked out of a number. -/
def halfDigit (digits : Int) (q : Rat) : Rat :=
  10 ^ (Int.log 10 |q| + 1 - digits) / 2

theorem divide_of_finite (hx : x.isFinite = true) (hy : y.isFinite = true) (hy0 : y.toRat ≠ 0) :
    divide places x y =
      (working (quotientDigits places x y)).map (fun p => rounded places (Decimal.divide p x y)) := by
  have hzero : y.isZero = false := by
    rw [Bool.eq_false_iff]
    exact fun h => hy0 ((isZero_iff hy).mp h)
  rw [divide, hzero, hx, hy]
  cases working (quotientDigits places x y) <;> rfl

theorem halfDigit_nonneg (digits : Int) (q : Rat) : 0 ≤ halfDigit digits q := by
  unfold halfDigit
  positivity

/-- Where the leading digit of a magnitude is. -/
theorem log_bounds {m : Rat} (hm : 0 < m) :
    (10 : Rat) ^ Int.log 10 m ≤ m ∧ m < 10 ^ (Int.log 10 m + 1) := by
  have hlow := Int.zpow_log_le_self (b := 10) (by decide) hm
  have hhigh := Int.lt_zpow_succ_log_self (b := 10) (by decide) m
  exact ⟨by exact_mod_cast hlow, by exact_mod_cast hhigh⟩

/-- Some digits are worked out behind the places that are kept. -/
theorem log_add_le (places : Nat) (s t : Bool) (hc : c ≠ 0) (hd : d ≠ 0) :
    Int.log 10 ((c : Rat) * 10 ^ e / (d * 10 ^ f)) + places + 4 ≤
      quotientDigits places (.finite s c e) (.finite t d f) := by
  have hpos := quotient_pos (e := e) (f := f) hc hd
  have hhigh : (c : Rat) * 10 ^ e / (d * 10 ^ f) < 10 ^ (leading c e + 1 - leading d f) := by
    rw [zpow_sub₀ (by norm_num)]
    exact div_lt_div₀ (lt_tens_leading c e) (tens_leading_le hd f) (tens_pos _).le (tens_pos _)
  have hlt := tens_lt_iff.mp (lt_of_le_of_lt (log_bounds hpos).1 hhigh)
  simp only [quotientDigits, adjusted]
  omega

/-- What is rounded twice is what the exact quotient gives if it is raised by half a digit. -/
theorem rounded_divideFinite {p : Nat} (hmost : places ≤ mostPlaces) (hplaces : places + 3 ≤ p)
    (hlimit : p ≤ limit) (s t : Bool) (hc : c ≠ 0) (hd : d ≠ 0)
    (hlog : Int.log 10 ((c : Rat) * 10 ^ e / (d * 10 ^ f)) + places + 4 ≤ p) :
    ∃ k g, rounded places (divideFinite p s c e t d f) = .finite (s != t) k g ∧
      (k : Rat) * 10 ^ g = halfUp places (c * 10 ^ e / (d * 10 ^ f) +
        10 ^ (Int.log 10 ((c : Rat) * 10 ^ e / (d * 10 ^ f)) + 1 - p) / 2) := by
  obtain ⟨hlow, hhigh⟩ := log_bounds (quotient_pos (e := e) (f := f) hc hd)
  obtain ⟨k, g, hdiv, heven⟩ := divideFinite_even (p := p) (by omega) s t hc hd hlow hhigh
    (by omega)
  obtain ⟨k', g', hquantized, hvalue⟩ := quantized_halfUp places (s != t) k g
  refine ⟨k', g', by rw [hdiv, rounded_eq_quantized hmost, hquantized], ?_⟩
  have hnonneg := (quotient_pos (e := e) (f := f) hc hd).le
  generalize (c : Rat) * 10 ^ e / (d * 10 ^ f) = m at hlog hlow hhigh heven hnonneg ⊢
  generalize Int.log 10 m = L at hlog hlow hhigh heven ⊢
  rw [hvalue]
  by_cases hplace : tiniest p ≤ L + 1 - p
  · rw [lastPlace, max_eq_left hplace] at heven
    exact halfUp_even (by omega) heven
  · -- so small a quotient gives zero
    unfold tiniest at hplace
    have hm : m ≤ 10 ^ (-places - 2 : Int) := hhigh.le.trans (tens_le (by omega))
    have hhalf : ∀ {l : Int}, l ≤ -places - 2 → (10 : Rat) ^ l / 2 ≤ 10 ^ (-places - 2 : Int) := by
      intro l hl
      have hle := tens_le hl
      have hpos := tens_pos l
      linarith
    have hlast : lastPlace p L + 2 ≤ -places := by
      unfold lastPlace tiniest
      omega
    rw [halfUp_even hlast heven,
      halfUp_of_small hnonneg (by positivity) hm (hhalf (by omega)),
      halfUp_of_small hnonneg (by positivity) hm (hhalf (by omega))]

/-- Half a digit is far below a unit of the last place. -/
theorem halfDigit_le (places : Nat) (hx : x.isFinite = true) (hy : y.isFinite = true)
    (hy0 : y.toRat ≠ 0) :
    halfDigit (quotientDigits places x y) (x.toRat / y.toRat) ≤ 10 ^ (-places - 2 : Int) := by
  have hlog : Int.log 10 |x.toRat / y.toRat| + 1 - quotientDigits places x y ≤ -places - 2 := by
    by_cases hx0 : x.toRat = 0
    · have hzero : Int.log 10 |x.toRat / y.toRat| = 0 := by simp [hx0]
      rw [hzero]
      unfold quotientDigits
      omega
    · cases x with
      | infinite | nan => cases hx
      | finite s c e =>
        cases y with
        | infinite | nan => cases hy
        | finite t d f =>
          have hc := coefficient_ne_zero hx0
          have hd := coefficient_ne_zero hy0
          have hlog := log_add_le (e := e) (f := f) places s t hc hd
          rw [(toRat_div s t hc hd).1]
          omega
  have hle := tens_le hlog
  have hpos := tens_pos (Int.log 10 |x.toRat / y.toRat| + 1 - quotientDigits places x y)
  unfold halfDigit
  linarith

/-- A quotient is what the exact one gives if it is raised by half a digit and rounded half up. -/
theorem divide_halfUp (hmost : places ≤ mostPlaces) (hx : x.isFinite = true)
    (hy : y.isFinite = true) (hy0 : y.toRat ≠ 0) (h : quotientDigits places x y ≤ limit) :
    ∃ r, divide places x y = .ok r ∧ Represents r
      (withSign (x.toRat / y.toRat) (halfUp places
        (|x.toRat / y.toRat| + halfDigit (quotientDigits places x y) (x.toRat / y.toRat)))) := by
  have hdigits : places + 3 ≤ quotientDigits places x y := by
    unfold quotientDigits
    omega
  have hhalf := halfDigit_le places hx hy hy0
  obtain ⟨p, hp, hwork⟩ := working_of_le (by omega) h
  rw [divide_of_finite hx hy hy0, hwork]
  cases x with
  | infinite | nan => cases hx
  | finite s c e =>
    cases y with
    | infinite | nan => cases hy
    | finite t d f =>
      have hd := coefficient_ne_zero hy0
      by_cases hc : c = 0
      · subst hc
        obtain ⟨k, g, hplaces, hvalue⟩ :=
          quantized_halfUp places (s != t) 0 (max (tiniest p) (min (e - f) limit))
        have hnone : halfUp places 0 = 0 := halfUp_of_multiple (n := 0) (by simp)
        rw [Nat.cast_zero, zero_mul, hnone] at hvalue
        rw [toRat_zero_coefficient, zero_div] at hhalf ⊢
        refine ⟨.finite (s != t) k g, ?_, rfl, ?_⟩
        · rw [← hplaces, Except.map, Decimal.divide, if_neg hd, divideFinite, if_pos rfl,
            Decimal.rounded, if_pos rfl, rounded_eq_quantized hmost]
        · rw [abs_zero, halfUp_of_small le_rfl (halfDigit_nonneg _ 0) (tens_pos _).le hhalf,
            toRat_eq, hvalue]
          simp [withSign]
      · obtain ⟨hq, hsign⟩ := toRat_div (e := e) (f := f) s t hc hd
        have hlog := log_add_le (e := e) (f := f) places s t hc hd
        rw [← hp] at hlog h hdigits ⊢
        obtain ⟨k, g, hround, hvalue⟩ :=
          rounded_divideFinite hmost (by omega) (by omega) s t hc hd hlog
        refine ⟨.finite (s != t) k g, ?_, rfl, ?_⟩
        · rw [← hround, Except.map, Decimal.divide, if_neg hd]
        · rw [toRat_eq, hvalue, withSign, halfDigit, hq]
          simp only [hsign]

/-- Quotients are rounded to their places, of which the host can represent the last. If there is a
precision of that many digits, the result is the exact quotient with `places` digits after the point,
a half rounded away from zero, unless the quotient lies below a tie by half of the last digit that is
worked out, or less: then the result is that of the tie. -/
theorem quotients_rounded {places : Nat} (hmost : places ≤ mostPlaces) {x y : Decimal}
    (hx : x.isFinite = true) (hy : y.isFinite = true) (hy0 : y.toRat ≠ 0) :
    (limit < quotientDigits places x y → divide places x y = .error .tooManyDigits) ∧
      (quotientDigits places x y ≤ limit → ∃ r, divide places x y = .ok r ∧ r.isFinite = true ∧
        ((∀ k, ¬ BelowTie places (halfDigit (quotientDigits places x y) (x.toRat / y.toRat))
            |x.toRat / y.toRat| k) → r.toRat = toPlaces places (x.toRat / y.toRat)) ∧
        ∀ k, BelowTie places (halfDigit (quotientDigits places x y) (x.toRat / y.toRat))
            |x.toRat / y.toRat| k →
          r.toRat = withSign (x.toRat / y.toRat) ((k + 1) / 10 ^ places)) := by
  constructor
  · intro h
    rw [divide_of_finite hx hy hy0, working_of_lt h]
    rfl
  · intro h
    obtain ⟨r, hr, hfinite, hvalue⟩ := divide_halfUp hmost hx hy hy0 h
    have hhalf := halfDigit_le places hx hy hy0
    refine ⟨r, hr, hfinite, fun hnone => ?_, fun k htie => ?_⟩
    · rw [hvalue, toPlaces, halfUp_of_not_belowTie (abs_nonneg _) (halfDigit_nonneg _ _) hnone]
    · rw [hvalue, halfUp_of_belowTie ?_ htie]
      have hunit := mul_le_mul_of_nonneg_right hhalf (unit_pos places).le
      rw [hundredth] at hunit
      linarith

/-- Some tenths of a unit of the last place. -/
def tenths (places c : Nat) : Decimal :=
  .finite false c (-places - 1)

theorem toRat_tenths (places c : Nat) :
    (tenths places c).toRat = c / 10 * 10 ^ (-places : Int) := by
  rw [tenths, toRat_eq, if_neg (by simp), tens_sub_one]
  ring

theorem toPlaces_five_tenths (places : Nat) :
    toPlaces places (tenths places 5).toRat = 10 ^ (-places : Int) := by
  have hpos := tens_pos (-places)
  have hten : (10 : Rat) ^ (-places : Int) = (10 ^ places)⁻¹ := by rw [zpow_neg, zpow_natCast]
  have hone : (10 : Rat) ^ (-places : Int) * 10 ^ places = 1 := by
    rw [hten, inv_mul_cancel₀ (unit_pos places).ne']
  have hhalf : (tenths places 5).toRat = 1 / 2 * 10 ^ (-places : Int) := by
    rw [toRat_tenths]
    push_cast
    ring
  rw [hhalf, toPlaces, withSign, if_neg (by linarith), abs_of_pos (by linarith), halfUp, mul_assoc,
    hone, hten]
  norm_num

/-- Beyond the places that the host can represent, a unit of the last place and less is lost. -/
theorem tenths_lost {c : Nat} (hc : c ≠ 0) (hten : c ≤ 10) (hmost : mostPlaces + 2 ≤ places)
    (hlimit : places + 3 ≤ limit) :
    ∃ r, divide places (tenths places c) one = .ok r ∧ r.toRat = 0 := by
  have hone : one.toRat ≠ 0 := by decide +kernel
  have hcount : digitCount c ≤ 2 := (digitCount_le_iff (by decide)).mpr (by omega)
  have hpos := digitCount_pos c
  have hdigits : quotientDigits places (tenths places c) one = places + 3 := by
    have h1 : one.adjusted = 0 := by decide +kernel
    rw [quotientDigits, h1, tenths, adjusted, leading]
    omega
  have hthree : (1 : Int) ≤ places + 3 := by omega
  obtain ⟨p, hp, hwork⟩ := working_of_le hthree (by omega)
  have hdiv : Decimal.divide p (tenths places c) one = tenths places c := by
    rw [tenths, show one = .finite false 1 0 from rfl, Decimal.divide, if_neg (by decide),
      divideFinite_one hc (by omega) (by unfold tiniest; omega) (by unfold leading; omega)]
  have hexact : (c : Rat) * 10 ^ (-places - 1 : Int) = c / 10 * 10 ^ (-places : Int) := by
    rw [← toRat_tenths, tenths, toRat_eq, if_neg (by simp)]
  obtain ⟨j, f, hquantized, hvalue⟩ := quantized_halfUp mostPlaces false c (-places - 1)
  have hsmall : (c : Rat) / 10 * 10 ^ (-places : Int) ≤ 10 ^ (-mostPlaces - 2 : Int) := by
    have hcast : (c : Rat) ≤ 10 := by exact_mod_cast hten
    have hle := tens_le (show -(places : Int) ≤ -mostPlaces - 2 by omega)
    have hunit := tens_pos (-places)
    calc (c : Rat) / 10 * 10 ^ (-places : Int) ≤ 1 * 10 ^ (-places : Int) :=
          mul_le_mul_of_nonneg_right (by linarith) hunit.le
      _ ≤ 10 ^ (-mostPlaces - 2 : Int) := by rwa [one_mul]
  have hnone : halfUp mostPlaces ((c : Rat) / 10 * 10 ^ (-places : Int) + 0) = 0 :=
    halfUp_of_small (by positivity) le_rfl hsmall (tens_pos _).le
  refine ⟨.finite false j f, ?_, ?_⟩
  · rw [divide_of_finite rfl rfl hone, hdigits, hwork, Except.map, hdiv, tenths,
      rounded_eq_leastPlace (by omega) (by omega), hquantized]
  · rw [toRat_eq, if_neg (by simp), hvalue, hexact]
    rwa [add_zero] at hnone

theorem five_tenths_lost (hmost : mostPlaces + 2 ≤ places) (hlimit : places + 3 ≤ limit) :
    ∃ r, divide places (tenths places 5) one = .ok r ∧
      r.toRat ≠ toPlaces places ((tenths places 5).toRat / one.toRat) := by
  obtain ⟨r, hr, hzero⟩ := tenths_lost (c := 5) (by decide) (by decide) hmost hlimit
  have hone : one.toRat = 1 := by decide +kernel
  refine ⟨r, hr, ?_⟩
  rw [hzero, hone, div_one, toPlaces_five_tenths]
  exact (tens_pos _).ne

/-- A number below one half is rounded to three digits first, which make it a half; a quotient can
have more digits before the point than there may be; and there are more places than the host can
represent. -/
theorem quotients_not_always_rounded :
    (∃ r, divide 0 (ofNat 4999) (ofNat 10000) = .ok r ∧
      r.toRat ≠ toPlaces 0 ((ofNat 4999).toRat / (ofNat 10000).toRat)) ∧
    divide 20 (.finite false 1 999999999999999990) one = .error .tooManyDigits ∧
    ∃ r, divide (1000028 : Nat) (tenths 1000028 5) one = .ok r ∧
      r.toRat ≠ toPlaces 1000028 ((tenths 1000028 5).toRat / one.toRat) := by
  refine ⟨⟨ofNat 1, ?_, ?_⟩, ?_, ?_⟩
  · decide +kernel
  · decide +kernel
  · decide +kernel
  · exact five_tenths_lost (by unfold mostPlaces; omega) (by unfold limit; omega)

theorem narrow_quotient_raised :
    0 ≤ mostPlaces ∧ (ofNat 10000).toRat ≠ 0 ∧
    quotientDigits (0 : Nat) (ofNat 4999) (ofNat 10000) = 3 ∧
    BelowTie 0 (halfDigit 3 (4999 / 10000)) (4999 / 10000) 0 ∧
    ∃ r, divide (0 : Nat) (ofNat 4999) (ofNat 10000) = .ok r ∧ r.toRat = 1 := by
  have hy0 : (ofNat 10000).toRat ≠ 0 := by decide +kernel
  have hdigits : quotientDigits (0 : Nat) (ofNat 4999) (ofNat 10000) = 3 := by decide +kernel
  have htie : BelowTie 0 (halfDigit 3 (4999 / 10000)) (4999 / 10000) 0 := by
    unfold BelowTie halfDigit
    decide +kernel
  refine ⟨Nat.zero_le _, hy0, hdigits, htie, ?_⟩
  have hq : (ofNat 4999).toRat / (ofNat 10000).toRat = 4999 / 10000 := by decide +kernel
  obtain ⟨r, hr, -, -, hraised⟩ :=
    (quotients_rounded (Nat.zero_le _) rfl rfl hy0).2 (by rw [hdigits]; decide)
  refine ⟨r, hr, ?_⟩
  rw [hdigits, hq, abs_of_pos (by norm_num)] at hraised
  rw [hraised 0 htie, withSign, if_neg (by norm_num)]
  norm_num

end Bignumber

end Abacus
