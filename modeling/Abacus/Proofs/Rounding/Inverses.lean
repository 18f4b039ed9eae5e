import Abacus.Proofs.Exact.Agreement
import Abacus.Proofs.Roots
import Abacus.Proofs.Rounding.Quotients

/-! Division and square roots undo products. What comes back has no more fractional digits than
there are places, so both roundings keep it, provided that enough digits are worked out. -/

namespace Abacus

open Number Decimal

/-- At most `places` fractional digits are needed to write `q`. -/
def HasPlaces (places : Nat) (q : Rat) : Prop :=
  ∃ n : Int, q * 10 ^ places = n

namespace HasPlaces

variable {places p : Nat} {q : Rat} {L : Int}

theorem abs (h : HasPlaces places q) : HasPlaces places |q| := by
  obtain ⟨n, hn⟩ := h
  refine ⟨|n|, ?_⟩
  rw [Int.cast_abs, ← hn, abs_mul, abs_of_pos (unit_pos places)]

theorem of_finite (s : Bool) {c : Nat} {e : Int} (he : -(places : Int) ≤ e) :
    HasPlaces places (Decimal.finite s c e).toRat := by
  refine ⟨signed s c * (10 ^ (e - -(places : Int)).toNat : Nat), ?_⟩
  rw [toRat, scale_down _ he, zpow_neg, zpow_natCast, mul_assoc,
    inv_mul_cancel₀ (unit_pos places).ne', mul_one]
  push_cast
  rfl

/-- The digits before the point and the places are digits enough. -/
theorem fitsAt (h : HasPlaces places q) (hq : |q| < 10 ^ L) (hp : L + places ≤ p)
    (hplaces : places ≤ p) (hL : L ≤ limit + 1) : FitsAt p q := by
  obtain ⟨n, hn⟩ := h
  have hvalue : q = n * 10 ^ (-places : Int) := by
    rw [← hn, zpow_neg, zpow_natCast, mul_assoc, mul_inv_cancel₀ (unit_pos places).ne', mul_one]
  refine ⟨n, -places, hvalue, ?_, ?_, lt_of_lt_of_le hq (tens_le hL)⟩
  · have hlt : |(n : Rat)| < 10 ^ (L + places) := by
      rw [← hn, abs_mul, abs_of_pos (unit_pos places), tens_add, zpow_natCast]
      exact mul_lt_mul_of_pos_right hq (unit_pos places)
    have hcast : |(n : Rat)| < (10 ^ p : Nat) := by
      refine lt_of_lt_of_le hlt ?_
      rw [Nat.cast_pow, Nat.cast_ofNat, ← zpow_natCast]
      exact tens_le hp
    rw [← Int.cast_abs, Int.abs_eq_natAbs, Int.cast_natCast] at hcast
    exact_mod_cast hcast
  · unfold tiniest limit
    omega

end HasPlaces

theorem withSign_abs (q : Rat) : withSign q |q| = q := by
  unfold withSign
  split
  · next hq => rw [abs_of_neg hq, neg_neg]
  · next hq => rw [abs_of_nonneg (not_lt.mp hq)]

namespace Decimal

/-- A rational whose square is a natural number is an integer. -/
theorem exists_natCast_of_sq {t : Rat} {n : Nat} (ht : 0 ≤ t) (h : t ^ 2 = n) :
    ∃ m : Nat, t = m ∧ m ^ 2 = n := by
  have hden : t.den = 1 := by
    have hsq : (t ^ 2).den = 1 := by
      rw [h]
      exact Rat.den_natCast n
    rw [Rat.den_pow] at hsq
    exact Nat.eq_one_of_mul_eq_one_left (by rwa [sq] at hsq)
  have hnum : (t.num : Rat) = t := (Rat.den_eq_one_iff t).mp hden
  obtain ⟨m, hm⟩ := Int.eq_ofNat_of_zero_le (Rat.num_nonneg.mpr ht)
  have hvalue : t = m := by
    rw [← hnum, hm]
    rfl
  refine ⟨m, hvalue, ?_⟩
  rw [hvalue] at h
  exact_mod_cast h

/-- The root of a square is an integer with half of the exponent, once that is even. -/
theorem exists_scaled_root {c : Nat} {e : Int} {q : Rat} (hq : 0 ≤ q)
    (h : (c : Rat) * 10 ^ e = q ^ 2) :
    ∃ m : Nat, m ^ 2 = c * 10 ^ (e % 2).toNat ∧ q = m * 10 ^ ((e - (e % 2).toNat) / 2) := by
  generalize hodd : (e % 2).toNat = odd
  obtain ⟨half, hhalf⟩ : ∃ half : Int, e = half + half + odd := ⟨e / 2, by omega⟩
  have hshift : (e - odd) / 2 = half := by omega
  have hten := tens_pos half
  obtain ⟨m, hm, hm2⟩ : ∃ m : Nat, q / 10 ^ half = m ∧ m ^ 2 = c * 10 ^ odd := by
    refine exists_natCast_of_sq (by positivity) ?_
    rw [div_pow, ← h, hhalf, tens_add, tens_add, zpow_natCast]
    push_cast
    field_simp
  rw [hshift]
  exact ⟨m, hm2, (div_eq_iff hten.ne').mp hm⟩

/-- The square root of a square is exact if it fits. -/
theorem sqrt_exact {p : Nat} {x : Decimal} {q : Rat} (hx : x.isFinite = true)
    (hsquare : x.toRat = q ^ 2) (hq : 0 ≤ q) (h : FitsAt p q) : Represents (sqrt p x) q := by
  cases x with
  | infinite | nan => cases hx
  | finite s c e =>
    by_cases hc : c = 0
    · have hzero : q = 0 := by
        rw [hc, toRat_zero_coefficient] at hsquare
        exact pow_eq_zero_iff (by decide) |>.mp hsquare.symm
      rw [sqrt, if_pos hc, hzero]
      exact rounded_zero p s _
    · have hpos : (0 : Rat) < c * 10 ^ e :=
        mul_pos (Nat.cast_pos.mpr (Nat.pos_of_ne_zero hc)) (tens_pos e)
      rw [toRat_eq] at hsquare
      cases s with
      | true =>
        rw [if_pos rfl] at hsquare
        have hnonneg := sq_nonneg q
        linarith
      | false =>
        rw [if_neg (by simp)] at hsquare
        obtain ⟨m, hm, hvalue⟩ := exists_scaled_root hq hsquare
        simp only [sqrt, if_neg hc, Bool.false_eq_true, if_false, tenPow_eq]
        rw [← hm]
        generalize (e - (e % 2).toNat) / 2 = half at hvalue ⊢
        generalize p + 2 - digitCount (m ^ 2) / 2 = k
        have hpow : m ^ 2 * 10 ^ (2 * k) = (m * 10 ^ k) ^ 2 := by
          rw [Nat.mul_pow, ← Nat.pow_mul, Nat.mul_comm k 2]
        have hscaled : (signed false m : Rat) * 10 ^ half = q := hvalue.symm
        -- nothing is cut off, so no digit marks a rest
        rw [hpow, integerRoot_pow (by decide), ← sq, roundedSticky, bne_self_eq_false,
          if_neg (by simp), dropZeros_tenPow Nat.lt_log2_self]
        rw [← hscaled] at h ⊢
        exact rounded_exact h

end Decimal

namespace Bignumber

variable {places : Nat} {q : Rat} {x y : Decimal}

/-- The computation gives `q`, unless more digits have to be worked out than a precision can have:
then it fails. -/
def GivesExactly (digits : Int) (result : Except Failure Decimal) (q : Rat) : Prop :=
  (digits ≤ limit → ∃ r, result = .ok r ∧ Represents r q) ∧
    (limit < digits → result = .error .tooManyDigits)

/-- Rounding keeps a number that has no more digits than there are places. -/
theorem rounded_of_hasPlaces (hmost : places ≤ mostPlaces) (h : Represents x q)
    (hq : HasPlaces places q) : Represents (rounded places x) q := by
  obtain ⟨hfinite, rfl⟩ := h
  cases x with
  | infinite | nan => cases hfinite
  | finite s c e =>
    obtain ⟨k, f, hround, hvalue⟩ := quantized_halfUp places s c e
    obtain ⟨n, hn⟩ := hq.abs
    rw [abs_toRat_finite] at hn
    rw [halfUp_of_multiple hn] at hvalue
    rw [rounded_eq_quantized hmost, hround]
    exact ⟨rfl, by rw [toRat_eq, toRat_eq, hvalue]⟩

theorem divide_exactly (hmost : places ≤ mostPlaces) (hx : x.isFinite = true)
    (hy : y.isFinite = true) (hy0 : y.toRat ≠ 0) (hq : HasPlaces places (x.toRat / y.toRat)) :
    GivesExactly (quotientDigits places x y) (divide places x y) (x.toRat / y.toRat) := by
  constructor
  · intro h
    obtain ⟨r, hr, hvalue⟩ := divide_halfUp hmost hx hy hy0 h
    obtain ⟨n, hn⟩ := hq.abs
    rw [halfUp_add_of_multiple hn (halfDigit_nonneg _ _) (halfDigit_le places hx hy hy0),
      withSign_abs] at hvalue
    exact ⟨r, hr, hvalue⟩
  · intro h
    rw [divide_of_finite hx hy hy0, working_of_lt h]
    rfl

theorem sqrt_exactly (hmost : places ≤ mostPlaces) (hx : x.isFinite = true)
    (hsquare : x.toRat = q ^ 2) (hq : 0 ≤ q) (hplaces : HasPlaces places q) :
    GivesExactly (rootDigits places x) (sqrt places x) q := by
  have hroot : sqrt places x = (working (rootDigits places x)).map
      (fun p => rounded places (Decimal.sqrt p x)) := by
    rw [sqrt, if_pos hx]
    cases working (rootDigits places x) <;> rfl
  constructor
  · intro h
    obtain ⟨p, hp, hwork⟩ := working_of_le (by unfold rootDigits; omega) h
    have hsize : |q| < 10 ^ (x.adjusted / 2 + 1) := by
      refine lt_of_pow_lt_pow_left₀ 2 (tens_pos _).le ?_
      cases x with
      | infinite | nan => cases hx
      | finite s c e =>
        rw [← abs_pow, ← hsquare, abs_toRat_finite, sq, ← tens_add]
        refine lt_of_lt_of_le (lt_tens_leading c e) (tens_le ?_)
        simp only [adjusted]
        omega
    have hfits : FitsAt p q := by
      unfold rootDigits at h hp
      exact hplaces.fitsAt hsize (by omega) (by omega) (by omega)
    rw [hroot, hwork]
    exact ⟨_, rfl, rounded_of_hasPlaces hmost (sqrt_exact hx hsquare hq hfits) hplaces⟩
  · intro h
    rw [hroot, working_of_lt h]
    rfl

/-- A power with a negative exponent is a quotient. -/
theorem power_exactly {n : Nat} (hmost : places ≤ mostPlaces) (hx : x.isFinite = true)
    (hx0 : x.toRat ≠ 0) (hy : y.isFinite = true) (hn : 1 ≤ n) (hvalue : y.toRat = -n)
    (h : Fits (x.toRat ^ n)) (hq : HasPlaces places (x.toRat ^ (-n : Int))) :
    GivesExactly (quotientDigits places one (Decimal.power exact x y.negate)) (power places x y)
      (x.toRat ^ (-n : Int)) := by
  have hy' : y.negate.isFinite = true := by cases y <;> first | rfl | cases hy
  have hneg : y.negate.toRat = n := by rw [toRat_negate, hvalue, neg_neg]
  have hpower : Represents (Decimal.power exact x y.negate) (x.toRat ^ n) :=
    power_exact hx hy' hneg (by omega) h
  have hone : one.toRat = 1 := by decide +kernel
  have hquotient : x.toRat ^ (-n : Int) = one.toRat / (Decimal.power exact x y.negate).toRat := by
    rw [hpower.value, hone, zpow_neg, zpow_natCast, one_div]
  have hy0 : y.toRat ≠ 0 := by
    rw [hvalue, neg_ne_zero]
    exact Nat.cast_ne_zero.mpr (by omega)
  have hint : y.isIntegral = true := by
    rw [isIntegral_iff hy, hvalue, Rat.neg_den]
    exact Rat.den_natCast n
  have hzero : y.isZero = false := by
    rw [Bool.eq_false_iff]
    exact fun hz => hy0 ((isZero_iff hy).mp hz)
  have hsign : y.isNegative = true := by
    rw [isNegative_eq hy hy0, hvalue, decide_eq_true_eq, neg_lt_zero, Nat.cast_pos]
    exact hn
  have hcall : power places x y = divide places one (Decimal.power exact x y.negate) := by
    rw [power, isNaN_of_finite hx, isNaN_of_finite hy, hint, hzero, hsign]
    rfl
  rw [hquotient] at hq ⊢
  rw [hcall]
  refine divide_exactly hmost rfl hpower.finite ?_ hq
  rw [hpower.value]
  exact pow_ne_zero n hx0

/-- Quotients and square roots give back the factor of a product, and powers with a negative
exponent are exact, if the places suffice for them and the host can represent the last, if the
products fit, and if no more digits have to be worked out than a precision can have. -/
theorem products_undone {places : Nat} (hmost : places ≤ mostPlaces) {x y : Decimal}
    (hx : x.isFinite = true) (hy : y.isFinite = true) :
    (y.toRat ≠ 0 → HasPlaces places x.toRat → Fits (x.toRat * y.toRat) →
      GivesExactly (quotientDigits places ((arithmetic places).multiply x y) y)
        ((arithmetic places).divide ((arithmetic places).multiply x y) y) x.toRat) ∧
    (HasPlaces places x.toRat → Fits (x.toRat * x.toRat) →
      Represents ((arithmetic places).absolute x) |x.toRat| ∧
      GivesExactly (rootDigits places ((arithmetic places).multiply x x))
        ((arithmetic places).sqrt ((arithmetic places).multiply x x)) |x.toRat|) ∧
    ∀ n : Nat, 1 ≤ n → y.toRat = -n → x.toRat ≠ 0 → Fits (x.toRat ^ n) →
      HasPlaces places (x.toRat ^ (-n : Int)) →
      GivesExactly (quotientDigits places one (Decimal.power exact x y.negate))
        ((arithmetic places).power x y) (x.toRat ^ (-n : Int)) := by
  refine ⟨fun hy0 hplaces hfits => ?_, fun hplaces hfits => ?_, fun n hn hvalue hx0 hfits hq => ?_⟩
  · have hproduct := multiply_exact hx hy hfits
    have hback : (multiply exact x y).toRat / y.toRat = x.toRat := by
      rw [hproduct.value, mul_div_cancel_right₀ _ hy0]
    have hgives := divide_exactly hmost hproduct.finite hy hy0 (hback.symm ▸ hplaces)
    rwa [hback] at hgives
  · have hproduct := multiply_exact hx hx hfits
    have hsquare : (multiply exact x x).toRat = |x.toRat| ^ 2 := by
      rw [hproduct.value, sq_abs, sq]
    refine ⟨abs_exact hx ?_,
      sqrt_exactly hmost hproduct.finite hsquare (abs_nonneg _) hplaces.abs⟩
    rw [← sq] at hfits
    have hone := hfits.pow_of_le hx le_rfl one_le_two
    rwa [pow_one] at hone
  · exact power_exactly hmost hx hx0 hy hn hvalue hfits hq

theorem hasPlaces_ten_tenths (places : Nat) : HasPlaces places (tenths places 10).toRat := by
  refine ⟨1, ?_⟩
  rw [toRat_tenths, zpow_neg, zpow_natCast, mul_assoc, inv_mul_cancel₀ (unit_pos places).ne']
  norm_num

theorem ten_tenths_lost (hmost : mostPlaces + 2 ≤ places) (hlimit : places + 3 ≤ limit) :
    ∃ r, divide places (tenths places 10) one = .ok r ∧ r.toRat ≠ (tenths places 10).toRat := by
  obtain ⟨r, hr, hzero⟩ := tenths_lost (c := 10) (by decide) (by decide) hmost hlimit
  have hunit := tens_pos (-places)
  refine ⟨r, hr, ?_⟩
  rw [hzero, toRat_tenths]
  push_cast
  exact ne_of_lt (by linarith)

/-- A product of few digits can lie so high above the places that its quotient has too many digits
to be worked out; and where there are more places than the host can represent, a unit of the last
place does not come back. -/
theorem products_not_always_undone :
    (∃ x : Decimal, HasPlaces 20 x.toRat ∧ Fits (x.toRat * one.toRat) ∧
      (arithmetic 20).divide ((arithmetic 20).multiply x one) one = .error .tooManyDigits) ∧
    ∃ x : Decimal, HasPlaces 1000028 x.toRat ∧ Fits (x.toRat * one.toRat) ∧
      ∃ r, (arithmetic (1000028 : Nat)).divide
        ((arithmetic (1000028 : Nat)).multiply x one) one = .ok r ∧ r.toRat ≠ x.toRat := by
  have hone : one.toRat = 1 := by decide +kernel
  rw [hone]
  simp only [mul_one]
  refine ⟨⟨.finite false 1 999999999999999990, ?_, ?_, ?_⟩, tenths 1000028 10, ?_, ?_, ?_⟩
  · exact .of_finite false (by decide)
  · exact .of_finite false (Nat.one_lt_pow (by decide) (by decide)) (by decide +kernel)
      (by decide +kernel)
  · decide +kernel
  · exact hasPlaces_ten_tenths 1000028
  · have hten : 10 ^ 1 < 10 ^ exact := Nat.pow_lt_pow_right (by decide) (by decide)
    exact .of_finite false hten (by decide +kernel) (by decide +kernel)
  · have hproduct : multiply exact (tenths 1000028 10) one = tenths 1000028 10 := by decide +kernel
    have hmost : mostPlaces + 2 ≤ 1000028 := by
      unfold mostPlaces
      omega
    obtain ⟨r, hr, hne⟩ := ten_tenths_lost hmost (by unfold limit; omega)
    exact ⟨r, (congrArg (divide _ · one) hproduct).trans hr, hne⟩

/-- One quarter comes back from its half and from its square, and its square divides one exactly. -/
theorem quarter_comes_back :
    2 ≤ mostPlaces ∧ ∃ x y : Decimal, x.toRat = -1 / 4 ∧ y.toRat = -2 ∧
      (∃ r, (arithmetic (2 : Nat)).divide ((arithmetic (2 : Nat)).multiply x y) y = .ok r ∧
        Represents r (-1 / 4)) ∧
      (∃ r, (arithmetic (2 : Nat)).sqrt ((arithmetic (2 : Nat)).multiply x x) = .ok r ∧
        Represents r (1 / 4)) ∧
      ∃ r, (arithmetic (2 : Nat)).power x y = .ok r ∧ Represents r 16 := by
  have hmost : 2 ≤ mostPlaces := by decide
  have hx : (Decimal.finite true 25 (-2)).toRat = -1 / 4 := by decide +kernel
  have hy : (Decimal.finite true 2 0).toRat = -2 := by decide +kernel
  have hplaces : HasPlaces 2 (-1 / 4) := ⟨-25, by norm_num⟩
  have hfits : ∀ {c : Nat} {e : Int}, c < 10 ^ 4 → tiniest exact ≤ e → leading c e ≤ limit →
      Fits (Decimal.finite false c e).toRat := fun hc hlow hhigh =>
    .of_finite false (lt_of_lt_of_le hc (Nat.pow_le_pow_right (by decide) (by decide))) hlow hhigh
  have hhalf : Fits (-1 / 4 * -2) := by
    have h := hfits (c := 5) (e := -1) (by decide) (by decide) (by decide +kernel)
    rwa [show (Decimal.finite false 5 (-1)).toRat = -1 / 4 * -2 by decide +kernel] at h
  have hsquare : Fits (-1 / 4 * (-1 / 4)) := by
    have h := hfits (c := 625) (e := -4) (by decide) (by decide) (by decide +kernel)
    rwa [show (Decimal.finite false 625 (-4)).toRat = -1 / 4 * (-1 / 4) by decide +kernel] at h
  obtain ⟨hdivide, hsqrt, hpower⟩ := products_undone hmost (x := .finite true 25 (-2))
    (y := .finite true 2 0) rfl rfl
  rw [hx] at hdivide hsqrt hpower
  rw [hy] at hdivide hpower
  have hback := hdivide (by norm_num) hplaces hhalf
  have hroot := hsqrt hplaces hsquare
  have hinverse := hpower 2 (by decide) (by norm_num) (by norm_num) (by rwa [sq])
    ⟨1600, by norm_num⟩
  refine ⟨hmost, .finite true 25 (-2), .finite true 2 0, hx, hy, hback.1 (by decide +kernel), ?_, ?_⟩
  · have hgives := hroot.2.1 (by decide +kernel)
    rwa [abs_of_neg (by norm_num), neg_div, neg_neg] at hgives
  · have hgives := hinverse.1 (by decide +kernel)
    norm_num at hgives
    exact hgives

end Bignumber

end Abacus
