import Abacus.Proofs.Exact.Value
import Abacus.System.Bignumber
import Abacus.System.Fraction

/-! Decimal numbers are ordered, and rounded to integers, like their rational values. No limit plays
a part in this. -/

namespace Abacus

open Number Decimal

namespace Fraction

variable {x y k : Rat}

theorem order_of_lt (h : x < y) : order x y = .lt := by
  simp [order, h]

theorem order_of_gt (h : y < x) : order x y = .gt := by
  simp [order, h.not_gt, h.ne']

theorem order_mul_right (hk : 0 < k) : order (x * k) (y * k) = order x y := by
  simp only [order, mul_lt_mul_iff_left₀ hk, mul_left_inj' hk.ne']

theorem order_neg (x y : Rat) : order (-x) (-y) = order y x := by
  simp only [order, neg_lt_neg_iff, neg_inj, eq_comm]

theorem order_natCast (a b : Nat) : order (a : Rat) b = compare a b := by
  simp only [order, Nat.cast_lt, Nat.cast_inj, Nat.compare_eq_ite_lt]
  rcases lt_trichotomy a b with h | rfl | h
  · simp [h]
  · simp
  · simp [h, h.not_gt, h.ne']

theorem order_eq_iff : order x y = .eq ↔ x = y := by
  rcases lt_trichotomy x y with h | rfl | h
  · simp [order_of_lt h, h.ne]
  · simp [order]
  · simp [order_of_gt h, h.ne']

theorem order_lt_iff : order x y = .lt ↔ x < y := by
  rcases lt_trichotomy x y with h | rfl | h
  · simp [order_of_lt h, h]
  · simp [order]
  · simp [order_of_gt h, h.le]

theorem floor_eq (x : Rat) : floor x = ⌊x⌋ :=
  Rat.floor_def'.symm

theorem toInteger_up (x : Rat) : toInteger .up x = ⌈x⌉ := by
  simp [toInteger, floor_eq, Int.floor_neg]

theorem toInteger_nearest (hx : 0 ≤ x) : toInteger .nearest x = ⌊x + 1 / 2⌋ := by
  simp [toInteger, floor_eq, hx.not_gt]

theorem toInteger_nearest_neg (hx : 0 ≤ x) : toInteger .nearest (-x) = -⌊x + 1 / 2⌋ := by
  rcases hx.eq_or_lt with rfl | hpos
  · have hhalf : ⌊(0 : Rat) + 1 / 2⌋ = 0 := by norm_num
    rw [neg_zero, toInteger_nearest le_rfl, hhalf]
    simp
  · simp [toInteger, floor_eq, hpos]

theorem toInteger_intCast (d : Direction) (n : Int) : toInteger d n = n := by
  have hhalf : ∀ m : Int, ⌊(m : Rat) + 1 / 2⌋ = m := by
    intro m
    rw [Int.floor_intCast_add]
    norm_num
  cases d with
  | down => simp [toInteger, floor_eq]
  | up => simp [toInteger_up]
  | nearest =>
    by_cases hn : 0 ≤ n
    · rw [toInteger_nearest (by exact_mod_cast hn), hhalf]
    · have hneg := toInteger_nearest_neg (x := ((-n : Int) : Rat)) (by exact_mod_cast (by omega))
      rw [hhalf] at hneg
      push_cast at hneg
      rwa [neg_neg] at hneg

end Fraction

namespace Decimal

theorem compareMagnitude_eq (c : Nat) (e : Int) (d : Nat) (f : Int) :
    compareMagnitude c e d f = Fraction.order (c * 10 ^ e) (d * 10 ^ f) := by
  unfold compareMagnitude
  by_cases hzero : c = 0 ∨ d = 0
  · rw [if_pos hzero]
    have hX : (0 : Rat) ≤ c * 10 ^ e := mul_nonneg (Nat.cast_nonneg c) (tens_pos e).le
    rcases hzero with rfl | rfl
    · by_cases hd : d = 0
      · simp [hd, Fraction.order]
      · have hY : (0 : Rat) < d * 10 ^ f :=
          mul_pos (Nat.cast_pos.mpr (Nat.pos_of_ne_zero hd)) (tens_pos f)
        rw [Nat.cast_zero, zero_mul, Fraction.order_of_lt hY]
        exact Nat.compare_eq_lt.mpr (Nat.pos_of_ne_zero hd)
    · by_cases hc : c = 0
      · simp [hc, Fraction.order]
      · have hX : (0 : Rat) < c * 10 ^ e :=
          mul_pos (Nat.cast_pos.mpr (Nat.pos_of_ne_zero hc)) (tens_pos e)
        rw [Nat.cast_zero, zero_mul, Fraction.order_of_gt hX]
        exact Nat.compare_eq_gt.mpr (Nat.pos_of_ne_zero hc)
  · rw [if_neg hzero]
    obtain ⟨hc, hd⟩ := not_or.mp hzero
    have hbelow : ∀ {a b : Nat} {g l : Int}, b ≠ 0 → leading a g < leading b l →
        (a : Rat) * 10 ^ g < b * 10 ^ l := by
      intro a b g l hb hlt
      calc (a : Rat) * 10 ^ g < 10 ^ (leading a g + 1) := lt_tens_leading a g
        _ ≤ 10 ^ leading b l := tens_le (by omega)
        _ ≤ b * 10 ^ l := tens_leading_le hb l
    rcases lt_trichotomy (leading c e) (leading d f) with hlt | heq | hgt
    · have horder : compare (leading c e) (leading d f) = .lt := compare_lt_iff_lt.mpr hlt
      simp [horder, Fraction.order_of_lt (hbelow hd hlt)]
    · have horder : compare (leading c e) (leading d f) = .eq := compare_eq_iff_eq.mpr heq
      simp only [horder, if_true]
      split
      · next hfe =>
        rw [scale_down (c : Rat) hfe, Fraction.order_mul_right (tens_pos f), ← Nat.cast_mul,
          Fraction.order_natCast, tenPow_eq]
      · next hfe =>
        rw [scale_down (d : Rat) (le_of_not_ge hfe), Fraction.order_mul_right (tens_pos e),
          ← Nat.cast_mul, Fraction.order_natCast, tenPow_eq]
    · have horder : compare (leading c e) (leading d f) = .gt := compare_gt_iff_gt.mpr hgt
      simp [horder, Fraction.order_of_gt (hbelow hc hgt)]

theorem toRat_eq (s : Bool) (c : Nat) (e : Int) :
    (Decimal.finite s c e).toRat = if s then -((c : Rat) * 10 ^ e) else (c : Rat) * 10 ^ e := by
  cases s <;> simp [toRat, signed]

theorem order_eq {x y : Decimal} (hx : x.isFinite = true) (hy : y.isFinite = true) :
    x.order? y = some (Fraction.order x.toRat y.toRat) := by
  cases x with
  | infinite | nan => cases hx
  | finite s c e =>
    cases y with
    | infinite | nan => cases hy
    | finite t d f =>
      have hpos : ∀ {a : Nat} (g : Int), a ≠ 0 → (0 : Rat) < a * 10 ^ g :=
        fun g ha => mul_pos (Nat.cast_pos.mpr (Nat.pos_of_ne_zero ha)) (tens_pos g)
      simp only [order?, toRat_eq, compareMagnitude_eq]
      by_cases hc : c = 0
      · by_cases hd : d = 0
        · simp [hc, hd, Fraction.order]
        · have hY := hpos f hd
          have hlt := Fraction.order_of_lt hY
          have hgt := Fraction.order_of_gt (neg_lt_zero.mpr hY)
          cases t <;> simp [hc, hd, hlt, hgt]
      · have hX := hpos e hc
        by_cases hd : d = 0
        · have hgt := Fraction.order_of_gt hX
          have hlt := Fraction.order_of_lt (neg_lt_zero.mpr hX)
          cases s <;> simp [hc, hd, hlt, hgt]
        · have hY := hpos f hd
          have hXY : -((c : Rat) * 10 ^ e) < d * 10 ^ f := by linarith
          have hYX : -((d : Rat) * 10 ^ f) < c * 10 ^ e := by linarith
          cases s <;> cases t <;>
            simp [hc, hd, Fraction.order_neg, Fraction.order_of_lt hXY, Fraction.order_of_gt hYX]

theorem sameValue_iff {x y : Decimal} (hx : x.isFinite = true) (hy : y.isFinite = true) :
    x.sameValue y = true ↔ x.toRat = y.toRat := by
  simp [sameValue, order_eq hx hy, Fraction.order_eq_iff]

end Decimal

namespace Number

variable (n : Nat) {d : Nat}

theorem floor_div (d : Nat) : ⌊(n : Rat) / d⌋ = (n / d : Nat) := by
  rw [Rat.floor_natCast_div_natCast]
  norm_cast

theorem div_eq_add (hd : 0 < d) : (n : Rat) / d = (n / d : Nat) + ((n % d : Nat) : Rat) / d := by
  have hcast : (n : Rat) = d * (n / d : Nat) + (n % d : Nat) := by
    exact_mod_cast (Nat.div_add_mod n d).symm
  have hne : (d : Rat) ≠ 0 := Nat.cast_ne_zero.mpr hd.ne'
  nth_rewrite 1 [hcast]
  rw [add_div, mul_div_cancel_left₀ _ hne]

theorem ceil_div (hd : 0 < d) :
    ⌈(n : Rat) / d⌉ = ((if n % d = 0 then n / d else n / d + 1 : Nat) : Int) := by
  have hpos : (0 : Rat) < d := Nat.cast_pos.mpr hd
  have hlt : ((n % d : Nat) : Rat) / d < 1 :=
    (div_lt_one hpos).mpr (Nat.cast_lt.mpr (Nat.mod_lt n hd))
  rw [Int.ceil_eq_iff, div_eq_add n hd]
  generalize n / d = q
  generalize n % d = r at hlt ⊢
  by_cases hr : r = 0
  · simp [hr]
  · have hrpos : (0 : Rat) < (r : Rat) / d :=
      div_pos (Nat.cast_pos.mpr (Nat.pos_of_ne_zero hr)) hpos
    rw [if_neg hr]
    push_cast
    constructor <;> linarith

theorem floor_div_add_half (hd : 0 < d) (s : Bool) :
    ⌊(n : Rat) / d + 1 / 2⌋ = (divRound .halfUp s n d : Nat) := by
  have hpos : (0 : Rat) < d := Nat.cast_pos.mpr hd
  have hlt : ((n % d : Nat) : Rat) / d < 1 :=
    (div_lt_one hpos).mpr (Nat.cast_lt.mpr (Nat.mod_lt n hd))
  have hge : (0 : Rat) ≤ ((n % d : Nat) : Rat) / d := div_nonneg (Nat.cast_nonneg _) hpos.le
  have hhalf : (1 : Rat) / 2 ≤ ((n % d : Nat) : Rat) / d ↔ d ≤ 2 * (n % d) := by
    rw [div_le_div_iff₀ (by norm_num) hpos]
    norm_cast
    omega
  have hround : divRound .halfUp s n d = if d ≤ 2 * (n % d) then n / d + 1 else n / d := by
    by_cases hr : n % d = 0
    · simp [divRound, hr, hd.ne']
    · simp [divRound, hr, Rounding.up]
  rw [Int.floor_eq_iff, div_eq_add n hd, hround]
  generalize n / d = q
  generalize n % d = r at *
  by_cases hup : d ≤ 2 * r
  · have hle := hhalf.mpr hup
    rw [if_pos hup]
    push_cast
    constructor <;> linarith
  · have hless := not_le.mp (fun hle => hup (hhalf.mp hle))
    rw [if_neg hup]
    push_cast
    constructor <;> linarith

end Number

namespace Decimal

theorem toIntegral_isFinite {x : Decimal} (hx : x.isFinite = true) (mode : Rounding) :
    (x.toIntegral mode).isFinite = true := by
  cases x with
  | infinite | nan => cases hx
  | finite s c e =>
    simp only [toIntegral]
    split <;> rfl

/-- A number without fractional digits is an integer. -/
theorem toRat_of_nonneg (s : Bool) (c : Nat) {e : Int} (he : 0 ≤ e) :
    (Decimal.finite s c e).toRat = (Decimal.finite s c e).toInt := by
  have hscale := scale_down (signed s c : Rat) he
  rw [zpow_zero, mul_one, sub_zero] at hscale
  rw [toRat, hscale, toInt, if_pos he, tenPow_eq, signed_mul_natCast]
  push_cast
  rfl

theorem toRat_of_neg (s : Bool) (c : Nat) {e : Int} (he : e < 0) :
    (Decimal.finite s c e).toRat =
      if s then -((c : Rat) / (10 ^ (-e).toNat : Nat))
      else (c : Rat) / (10 ^ (-e).toNat : Nat) := by
  have hpow : (10 : Rat) ^ e = ((10 ^ (-e).toNat : Nat) : Rat)⁻¹ := by
    rw [Nat.cast_pow, Nat.cast_ofNat, ← zpow_natCast, Int.toNat_of_nonneg (by omega), zpow_neg,
      inv_inv]
  rw [toRat_eq, hpow, ← div_eq_mul_inv]

theorem toIntegral_exact {x : Decimal} (hx : x.isFinite = true) (d : Direction) :
    Represents (x.toIntegral (Bignumber.directionOf d)) (Fraction.toInteger d x.toRat) := by
  refine ⟨toIntegral_isFinite hx _, ?_⟩
  cases x with
  | infinite | nan => cases hx
  | finite s c e =>
    by_cases he : 0 ≤ e
    · simp only [toIntegral, if_pos he]
      rw [toRat_of_nonneg s c he, Fraction.toInteger_intCast]
    · have hpow : 0 < 10 ^ (-e).toNat := Nat.pow_pos (by decide)
      have hround : ∀ mode, ((Decimal.finite s c e).toIntegral mode).toRat =
          (signed s (divRound mode s c (10 ^ (-e).toNat)) : Rat) := by
        intro mode
        simp only [toIntegral, if_neg he, dropDigits_eq, toRat, zpow_zero, mul_one]
      rw [hround, toRat_of_neg s c (not_le.mp he)]
      generalize 10 ^ (-e).toNat = b at hpow ⊢
      have hnonneg : (0 : Rat) ≤ (c : Rat) / b := by positivity
      cases d with
      | down =>
        simp only [Fraction.toInteger, Fraction.floor_eq, Bignumber.directionOf]
        cases s with
        | false => simp [signed, floor_div c b, divRound, Rounding.up]
        | true =>
          rw [if_pos rfl, Int.floor_neg, ceil_div c hpow]
          split
          · next hr => simp [signed, divRound, hr]
          · next hr => simp [signed, divRound, hr, Rounding.up]
      | up =>
        simp only [Fraction.toInteger_up, Bignumber.directionOf]
        cases s with
        | true => simp [signed, Int.ceil_neg, floor_div c b, divRound, Rounding.up]
        | false =>
          rw [if_neg (by simp), ceil_div c hpow]
          split
          · next hr => simp [signed, divRound, hr]
          · next hr => simp [signed, divRound, hr, Rounding.up]
      | nearest =>
        simp only [Bignumber.directionOf]
        cases s with
        | false =>
          rw [if_neg (by simp), Fraction.toInteger_nearest hnonneg, floor_div_add_half c hpow false]
          rfl
        | true =>
          rw [if_pos rfl, Fraction.toInteger_nearest_neg hnonneg, floor_div_add_half c hpow true]
          simp [signed]

/-- The coefficient of an integer has zeros where the digits behind the point are. -/
theorem coefficient_eq {c m : Nat} {e : Int} (he : e ≤ 0) (h : (c : Rat) * 10 ^ e = m) :
    c = m * 10 ^ (-e).toNat := by
  have hscale := scale_down (m : Rat) he
  rw [zpow_zero, mul_one, zero_sub] at hscale
  exact_mod_cast mul_right_cancel₀ (tens_pos e).ne' (h.trans hscale)

theorem isIntegral_iff {x : Decimal} (hx : x.isFinite = true) :
    x.isIntegral = true ↔ x.toRat.den = 1 := by
  have hsame : x.isIntegral = true ↔ x.toRat = (x.toIntegral .halfEven).toRat := by
    rw [isIntegral, hx, Bool.true_and, sameValue_iff hx (toIntegral_isFinite hx _)]
  rw [hsame]
  cases x with
  | infinite | nan => cases hx
  | finite s c e =>
    by_cases he : 0 ≤ e
    · simp only [toIntegral, if_pos he, true_iff]
      rw [toRat_of_nonneg s c he]
      exact Rat.den_intCast _
    · simp only [toIntegral, if_neg he]
      constructor
      · intro h
        rw [h, toRat_of_nonneg _ _ le_rfl]
        exact Rat.den_intCast _
      · intro h
        have hnum : (((Decimal.finite s c e).toRat.num : Int) : Rat) =
            (Decimal.finite s c e).toRat := (Rat.den_eq_one_iff _).mp h
        have hcoefficient : c = (Decimal.finite s c e).toRat.num.natAbs * 10 ^ (-e).toNat := by
          have habs := abs_toRat_finite s c e
          rw [← hnum, ← Int.cast_abs, Int.abs_eq_natAbs, Int.cast_natCast] at habs
          exact coefficient_eq (by omega) habs.symm
        generalize (Decimal.finite s c e).toRat.num.natAbs = m at hcoefficient
        have hdvd : 10 ^ (-e).toNat ∣ c := ⟨m, by rw [hcoefficient, mul_comm]⟩
        have hscale := scale_down (signed s m : Rat) (show e ≤ 0 by omega)
        rw [zpow_zero, mul_one, zero_sub] at hscale
        rw [dropDigits_of_dvd .halfEven s hdvd, hcoefficient,
          Nat.mul_div_cancel _ (Nat.pow_pos (by decide)), toRat, toRat, zpow_zero, mul_one, hscale,
          signed_mul_natCast]
        push_cast
        rfl

theorem toInt_toIntegral {x : Decimal} (hx : x.isFinite = true) (mode : Rounding) :
    ((x.toIntegral mode).toInt : Rat) = (x.toIntegral mode).toRat := by
  cases x with
  | infinite | nan => cases hx
  | finite s c e =>
    simp only [toIntegral]
    split
    · next he => exact (toRat_of_nonneg s c he).symm
    · exact (toRat_of_nonneg s _ le_rfl).symm

theorem toCount_exact {x : Decimal} (hx : x.isFinite = true) :
    Bignumber.toCount x = .ok (Fraction.floor x.toRat) := by
  have hvalue := (toIntegral_exact hx .down).value
  have hcount := toInt_toIntegral hx .floor
  simp only [Bignumber.directionOf] at hvalue
  rw [hvalue] at hcount
  rw [Bignumber.toCount, if_pos hx, Int.cast_inj.mp hcount]

end Decimal

end Abacus
