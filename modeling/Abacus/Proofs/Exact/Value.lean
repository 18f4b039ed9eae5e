import Abacus.Decimal.Basic
import Abacus.Proofs.Exact.Digits
import Mathlib.Algebra.Order.Field.Power
import Mathlib.Data.Rat.Floor
import Mathlib.Tactic.Linarith
import Mathlib.Tactic.NormNum
import Mathlib.Tactic.Positivity

/-! The rational value of a finite decimal number. Rounding keeps a value that fits the digits and
the exponents of a context, and so sums and products that fit are exact. -/

namespace Abacus.Decimal

open Number

/-- The value of a finite number. -/
def toRat : Decimal → Rat
  | .finite s c e => (signed s c : Rat) * 10 ^ e
  | _ => 0

structure Represents (x : Decimal) (q : Rat) : Prop where
  finite : x.isFinite = true
  value : x.toRat = q

/-- A number that `precision` digits and the range of exponents hold exactly. -/
def FitsAt (precision : Nat) (q : Rat) : Prop :=
  ∃ n e : Int, q = n * 10 ^ e ∧ n.natAbs < 10 ^ precision ∧ tiniest precision ≤ e ∧
    |q| < 10 ^ ((limit : Int) + 1)

section Tens

theorem tens_pos (e : Int) : (0 : Rat) < 10 ^ e :=
  zpow_pos (by norm_num) e

theorem tens_le {e f : Int} (h : e ≤ f) : (10 : Rat) ^ e ≤ 10 ^ f :=
  zpow_le_zpow_right₀ (by norm_num) h

theorem tens_lt_iff {e f : Int} : (10 : Rat) ^ e < 10 ^ f ↔ e < f :=
  zpow_lt_zpow_iff_right₀ (by norm_num)

theorem tens_add (e f : Int) : (10 : Rat) ^ (e + f) = 10 ^ e * 10 ^ f :=
  zpow_add₀ (by norm_num) e f

/-- The same number on a finer grid. -/
theorem scale_down (n : Rat) {e f : Int} (h : f ≤ e) :
    n * 10 ^ e = n * (10 ^ (e - f).toNat : Nat) * 10 ^ f := by
  have hnat : ((10 ^ (e - f).toNat : Nat) : Rat) = 10 ^ (e - f) := by
    rw [Nat.cast_pow, Nat.cast_ofNat, ← zpow_natCast, Int.toNat_of_nonneg (by omega)]
  rw [hnat, mul_assoc, ← tens_add, sub_add_cancel]

theorem tens_leading_le {c : Nat} (hc : c ≠ 0) (e : Int) :
    (10 : Rat) ^ leading c e ≤ c * 10 ^ e := by
  have hpos := digitCount_pos c
  have hcast : ((10 ^ (digitCount c - 1) : Nat) : Rat) ≤ c :=
    Nat.cast_le.mpr (tenPow_le_of_ne_zero hc)
  have hpow : (10 : Rat) ^ leading c e = ((10 ^ (digitCount c - 1) : Nat) : Rat) * 10 ^ e := by
    rw [Nat.cast_pow, Nat.cast_ofNat, ← zpow_natCast, ← tens_add]
    congr 1
    unfold leading
    omega
  rw [hpow]
  exact mul_le_mul_of_nonneg_right hcast (tens_pos e).le

theorem lt_tens_leading (c : Nat) (e : Int) : (c : Rat) * 10 ^ e < 10 ^ (leading c e + 1) := by
  have hcast : (c : Rat) < ((10 ^ digitCount c : Nat) : Rat) :=
    Nat.cast_lt.mpr (lt_tenPow_digitCount c)
  have hpow : (10 : Rat) ^ (leading c e + 1) = ((10 ^ digitCount c : Nat) : Rat) * 10 ^ e := by
    rw [Nat.cast_pow, Nat.cast_ofNat, ← zpow_natCast, ← tens_add]
    congr 1
    unfold leading
    omega
  rw [hpow]
  exact mul_lt_mul_of_pos_right hcast (tens_pos e)

theorem leading_le_of_lt {c : Nat} (hc : c ≠ 0) {e l : Int}
    (h : (c : Rat) * 10 ^ e < 10 ^ (l + 1)) : leading c e ≤ l := by
  have hlt := tens_lt_iff.mp (lt_of_le_of_lt (tens_leading_le hc e) h)
  omega

end Tens

section Signs

@[simp] theorem natAbs_signed (s : Bool) (c : Nat) : (signed s c).natAbs = c := by
  cases s <;> simp [signed]

@[simp] theorem abs_signed (s : Bool) (c : Nat) : |(signed s c : Rat)| = c := by
  cases s <;> simp [signed]

theorem signed_eq (s : Bool) (c : Nat) : (signed s c : Rat) = (if s then -1 else 1) * c := by
  cases s <;> simp [signed]

theorem signed_mul (s t : Bool) (c d : Nat) :
    signed s c * signed t d = signed (s != t) (c * d) := by
  cases s <;> cases t <;> simp [signed]

theorem signed_natAbs (n : Int) : signed (n < 0) n.natAbs = n := by
  by_cases hn : n < 0
  · simp only [signed, hn, decide_true, if_true]
    omega
  · simp only [signed, hn, decide_false, Bool.false_eq_true, if_false]
    omega

theorem abs_toRat_finite (s : Bool) (c : Nat) (e : Int) :
    |(Decimal.finite s c e).toRat| = c * 10 ^ e := by
  rw [toRat, abs_mul, abs_signed, abs_of_pos (tens_pos e)]

theorem toRat_zero_coefficient (s : Bool) (e : Int) : (Decimal.finite s 0 e).toRat = 0 := by
  rw [toRat, signed_eq, Nat.cast_zero, mul_zero, zero_mul]

theorem coefficient_ne_zero {s : Bool} {c : Nat} {e : Int}
    (h : (Decimal.finite s c e).toRat ≠ 0) : c ≠ 0 := by
  rintro rfl
  exact h (toRat_zero_coefficient s e)

end Signs

namespace FitsAt

variable {p : Nat} {q : Rat}

theorem neg (h : FitsAt p q) : FitsAt p (-q) := by
  obtain ⟨n, e, rfl, hn, he, hq⟩ := h
  exact ⟨-n, e, by push_cast; rw [neg_mul], by simpa using hn, he, by simpa using hq⟩

theorem abs (h : FitsAt p q) : FitsAt p |q| := by
  by_cases hq : 0 ≤ q
  · rwa [abs_of_nonneg hq]
  · rw [abs_of_neg (not_le.mp hq)]
    exact h.neg

theorem of_abs (h : FitsAt p |q|) : FitsAt p q := by
  by_cases hq : 0 ≤ q
  · rwa [abs_of_nonneg hq] at h
  · rw [abs_of_neg (not_le.mp hq)] at h
    simpa using h.neg

theorem mono {p' : Nat} (h : FitsAt p q) (hp : p ≤ p') : FitsAt p' q := by
  obtain ⟨n, e, rfl, hn, he, hq⟩ := h
  refine ⟨n, e, rfl, lt_of_lt_of_le hn (Nat.pow_le_pow_right (by decide) hp), ?_, hq⟩
  unfold tiniest at he ⊢
  omega

/-- Enough last digits of a number that fits are zeros. -/
theorem grid {c : Nat} {e : Int} (h : FitsAt p (c * 10 ^ e)) :
    ∃ k, 10 ^ k ∣ c ∧ c < 10 ^ (p + k) ∧ tiniest p ≤ e + k := by
  obtain ⟨n, f, hn, hlt, hf, _⟩ := h
  by_cases hef : e ≤ f
  · rw [scale_down n hef] at hn
    have hcast : ((c : Int) : Rat) = ((n * (10 ^ (f - e).toNat : Nat) : Int) : Rat) := by
      have hmul := mul_right_cancel₀ (tens_pos e).ne' hn
      push_cast at hmul ⊢
      exact hmul
    have habs : c = n.natAbs * 10 ^ (f - e).toNat := by
      have hint := congrArg Int.natAbs (Int.cast_inj.mp hcast)
      rwa [Int.natAbs_mul, Int.natAbs_natCast, Int.natAbs_natCast] at hint
    refine ⟨(f - e).toNat, ⟨n.natAbs, by rw [habs, mul_comm]⟩, ?_, by omega⟩
    rw [habs, pow_add]
    exact Nat.mul_lt_mul_of_pos_right hlt (Nat.pow_pos (by decide))
  · rw [scale_down c (le_of_not_ge hef)] at hn
    have hcast : ((c * (10 ^ (e - f).toNat : Nat) : Int) : Rat) = (n : Rat) := by
      have hmul := mul_right_cancel₀ (tens_pos f).ne' hn
      push_cast at hmul ⊢
      exact hmul
    have habs : c * 10 ^ (e - f).toNat = n.natAbs := by
      have hint := congrArg Int.natAbs (Int.cast_inj.mp hcast)
      rwa [Int.natAbs_mul, Int.natAbs_natCast, Int.natAbs_natCast] at hint
    have hle : c ≤ n.natAbs := by
      rw [← habs]
      exact Nat.le_mul_of_pos_right c (Nat.pow_pos (by decide))
    exact ⟨0, by simp, by simpa using lt_of_le_of_lt hle hlt, by omega⟩

/-- A number with few digits in the range of exponents. -/
theorem of_finite (s : Bool) {c : Nat} {e : Int} (hc : c < 10 ^ p) (hlow : tiniest p ≤ e)
    (hhigh : leading c e ≤ limit) : FitsAt p (Decimal.finite s c e).toRat := by
  refine ⟨signed s c, e, rfl, by rwa [natAbs_signed], hlow, ?_⟩
  rw [abs_toRat_finite]
  exact lt_of_lt_of_le (lt_tens_leading c e) (tens_le (by omega))

theorem range (h : FitsAt p q) : |q| < 10 ^ ((limit : Int) + 1) := by
  obtain ⟨_, _, _, _, _, hq⟩ := h
  exact hq

end FitsAt

theorem rounded_zero (p : Nat) (s : Bool) (e : Int) : Represents (rounded p s 0 e) 0 := by
  constructor
  · simp [rounded, isFinite]
  · cases s <;> simp [rounded, toRat, signed]

/-- Cutting off zeros divides. -/
theorem dropped_of_dvd (s : Bool) {c k : Nat} (h : 10 ^ k ∣ c) :
    (if k = 0 then c else dropDigits .halfEven s c k) = c / 10 ^ k := by
  split
  · next hk => rw [hk, pow_zero, Nat.div_one]
  · rw [dropDigits_of_dvd .halfEven s h]

theorem digitCount_le_of_lt {p c : Nat} (hc : c ≠ 0) (h : c < 10 ^ p) : digitCount c ≤ p := by
  have hp : 0 < p := by
    refine Nat.pos_of_ne_zero (fun hz => hc ?_)
    rw [hz] at h
    omega
  exact (digitCount_le_iff hp).mpr h

/-- Rounding keeps a value that fits. -/
theorem rounded_exact {p : Nat} {s : Bool} {c : Nat} {e : Int}
    (h : FitsAt p (signed s c * 10 ^ e)) :
    Represents (rounded p s c e) (signed s c * 10 ^ e) := by
  by_cases hc : c = 0
  · subst hc
    have hzero : ((signed s 0 : Int) : Rat) * 10 ^ e = 0 := by cases s <;> simp [signed]
    rw [hzero]
    exact rounded_zero p s e
  · have habs : |(signed s c : Rat) * 10 ^ e| = c * 10 ^ e := abs_toRat_finite s c e
    have hfits : FitsAt p (c * 10 ^ e) := habs ▸ h.abs
    have hrange : (c : Rat) * 10 ^ e < 10 ^ ((limit : Int) + 1) := habs ▸ h.range
    obtain ⟨k, hk, hck, hek⟩ := hfits.grid
    have hdigits : digitCount c ≤ p + k := by
      refine (digitCount_le_iff (Nat.pos_of_ne_zero (fun hz => hc ?_))).mpr hck
      rw [hz] at hck
      omega
    -- what is dropped are zeros
    generalize hdrop : (max ((digitCount c : Int) - p) (tiniest p - e)).toNat = drop
    have hdk : drop ≤ k := by omega
    obtain ⟨kept, hkept⟩ : 10 ^ drop ∣ c := (Nat.pow_dvd_pow 10 hdk).trans hk
    have hdropped : (if drop = 0 then c else dropDigits .halfEven s c drop) = kept := by
      rw [dropped_of_dvd s ⟨kept, hkept⟩, hkept,
        Nat.mul_div_cancel_left _ (Nat.pow_pos (by decide))]
    have hnonzero : kept ≠ 0 := by
      rintro rfl
      exact hc (by rw [hkept, mul_zero])
    have hvalue : (kept : Rat) * 10 ^ (e + drop) = c * 10 ^ e := by
      rw [hkept, tens_add, zpow_natCast]
      push_cast
      ring
    have hsmall : kept < 10 ^ p := by
      have hlt := lt_tenPow_digitCount c
      have hle : 10 ^ digitCount c ≤ 10 ^ drop * 10 ^ p := by
        rw [← pow_add]
        exact Nat.pow_le_pow_right (by decide) (by omega)
      rw [hkept] at hlt hle
      exact Nat.lt_of_mul_lt_mul_left (lt_of_lt_of_le hlt hle)
    have hfew : ¬ p < digitCount kept := not_lt.mpr (digitCount_le_of_lt hnonzero hsmall)
    have hbelow : ¬ (limit : Int) < leading kept (e + drop) :=
      not_lt.mpr (leading_le_of_lt hnonzero (hvalue ▸ hrange))
    have hround : rounded p s c e = .finite s kept (e + drop) := by
      rw [rounded, if_neg hc]
      dsimp only
      rw [hdrop, hdropped, if_neg hfew, bounded, if_neg hbelow]
    rw [hround]
    refine ⟨rfl, ?_⟩
    rw [toRat, signed_eq, signed_eq, mul_assoc, hvalue, mul_assoc]

theorem signed_mul_natCast (s : Bool) (c k : Nat) : signed s (c * k) = signed s c * k := by
  cases s <;> simp [signed]

theorem addAligned_exact {p : Nat} {s t : Bool} {c d : Nat} {e : Int}
    (h : FitsAt p ((signed s c + signed t d : Int) * 10 ^ e)) :
    Represents (addAligned p s c t d e) ((signed s c + signed t d : Int) * 10 ^ e) := by
  unfold addAligned
  generalize signed s c + signed t d = n at h ⊢
  dsimp only
  split
  · next hn =>
    rw [hn, Int.cast_zero, zero_mul]
    exact rounded_zero p _ e
  · have hsign := signed_natAbs n
    have hexact := @rounded_exact p (n < 0) n.natAbs e (by rwa [hsign])
    rwa [hsign] at hexact

/-- What is smaller than a unit is no multiple of it. -/
theorem ne_multiple_of_lt (t : Bool) {d : Nat} {f g : Int} (hd : d ≠ 0)
    (h : (d : Rat) * 10 ^ f < 10 ^ g) (m : Int) : (signed t d : Rat) * 10 ^ f ≠ m * 10 ^ g := by
  intro hm
  have habs : (d : Rat) * 10 ^ f = |(m : Rat)| * 10 ^ g := by
    rw [← abs_toRat_finite t d f, toRat, hm, abs_mul, abs_of_pos (tens_pos g)]
  have hone : |(m : Rat)| < 1 := by
    rw [habs] at h
    exact lt_of_mul_lt_mul_right (by linarith) (tens_pos g).le
  have hzero : m = 0 := by
    have hint : |m| < 1 := by exact_mod_cast hone
    exact Int.abs_lt_one_iff.mp hint
  have hpos : (0 : Rat) < d * 10 ^ f :=
    mul_pos (Nat.cast_pos.mpr (Nat.pos_of_ne_zero hd)) (tens_pos f)
  rw [habs, hzero] at hpos
  simp at hpos

theorem abs_mul_tens_lt {n : Int} {p : Nat} (hn : n.natAbs < 10 ^ p) (g : Int) :
    |(n : Rat) * 10 ^ g| < 10 ^ ((p : Int) + g) := by
  have hcast : |(n : Rat)| < 10 ^ (p : Int) := by
    rw [zpow_natCast]
    have hint : |n| < 10 ^ p := by
      rw [Int.abs_eq_natAbs]
      exact_mod_cast hn
    exact_mod_cast hint
  rw [abs_mul, abs_of_pos (tens_pos g), tens_add]
  exact mul_lt_mul_of_pos_right hcast (tens_pos g)

theorem sub_le_abs_sum (s t : Bool) (c d : Nat) (e f : Int) :
    (c : Rat) * 10 ^ e - d * 10 ^ f ≤ |(signed s c : Rat) * 10 ^ e + signed t d * 10 ^ f| := by
  have htri := abs_sub_abs_le_abs_sub ((signed s c : Rat) * 10 ^ e) (-(signed t d * 10 ^ f))
  have hx := abs_toRat_finite s c e
  have hy := abs_toRat_finite t d f
  rw [toRat] at hx hy
  rwa [abs_neg, sub_neg_eq_add, hx, hy] at htri

/-- A sum with a number below all digits that count does not fit. -/
theorem not_fitsAt_of_far {p : Nat} (s t : Bool) {c d : Nat} {e f floor : Int} (hc : c ≠ 0)
    (hd : d ≠ 0)
    (hfloor : floor = e - 1 + if p < digitCount c then 0 else (digitCount c : Int) - p - 1)
    (hfar : leading d f < floor) : ¬ FitsAt p (signed s c * 10 ^ e + signed t d * 10 ^ f) := by
  rintro ⟨n, g, hsum, hn, -, -⟩
  obtain ⟨hfirst, hlast, hfe⟩ : floor ≤ leading c e - 1 ∧
      (p : Int) + floor - 1 ≤ leading c e - 2 ∧ floor ≤ e := by
    have hpos := digitCount_pos c
    unfold leading
    split at hfloor <;> omega
  have hsecond : (d : Rat) * 10 ^ f < 10 ^ floor :=
    lt_of_lt_of_le (lt_tens_leading d f) (tens_le (by omega))
  by_cases hg : floor ≤ g
  · -- then the number itself would be a multiple of something larger
    rw [scale_down (n : Rat) hg, scale_down (signed s c : Rat) hfe] at hsum
    refine ne_multiple_of_lt t hd hsecond
      (n * (10 ^ (g - floor).toNat : Nat) - signed s c * (10 ^ (e - floor).toNat : Nat)) ?_
    push_cast at hsum ⊢
    rw [sub_mul]
    linarith
  · -- then the sum would have its first digit far below the one of the first number
    have hsmall : |(n : Rat) * 10 ^ g| < 10 ^ (leading c e - 2) :=
      lt_of_lt_of_le (abs_mul_tens_lt hn g) (tens_le (by omega))
    have hlarge := sub_le_abs_sum s t c d e f
    have hdigit := tens_leading_le hc e
    have hpow : (10 : Rat) ^ leading c e = 100 * 10 ^ (leading c e - 2) := by
      rw [show leading c e = 2 + (leading c e - 2) by omega, tens_add]
      norm_num
    have hstep : (10 : Rat) ^ floor ≤ 10 * 10 ^ (leading c e - 2) := by
      have hle := tens_le (show floor ≤ 1 + (leading c e - 2) by omega)
      rwa [tens_add, zpow_one] at hle
    have hten := tens_pos (leading c e - 2)
    rw [hsum] at hlarge
    linarith

theorem addScaled_exact {p : Nat} {s t : Bool} {c d : Nat} {e f : Int} (hfe : f ≤ e)
    (h : FitsAt p (signed s c * 10 ^ e + signed t d * 10 ^ f)) :
    Represents (addScaled p s c e t d f) (signed s c * 10 ^ e + signed t d * 10 ^ f) := by
  -- on a common grid the sum is one of integers
  have hgrid : ∀ {g : Int} {b : Nat}, g ≤ e → (signed t b : Rat) * 10 ^ g = signed t d * 10 ^ f →
      Represents (addAligned p s (c * 10 ^ (e - g).toNat) t b g)
        (signed s c * 10 ^ e + signed t d * 10 ^ f) := by
    intro g b hg hb
    have hsum : ((signed s (c * 10 ^ (e - g).toNat) + signed t b : Int) : Rat) * 10 ^ g =
        signed s c * 10 ^ e + signed t d * 10 ^ f := by
      rw [← hb, scale_down (signed s c : Rat) hg, signed_mul_natCast]
      push_cast
      ring
    have hexact := @addAligned_exact p s t (c * 10 ^ (e - g).toNat) b g (by rwa [hsum])
    rwa [hsum] at hexact
  unfold addScaled
  split
  · next hc =>
    subst hc
    have hzero := @addAligned_exact p s t 0 d f
    have hsum : ((signed s 0 + signed t d : Int) : Rat) * 10 ^ f =
        signed s 0 * 10 ^ e + signed t d * 10 ^ f := by
      cases s <;> simp [signed]
    rw [hsum] at hzero
    exact hzero h
  · next hc =>
    dsimp only
    generalize hfloor :
      e - 1 + (if p < digitCount c then 0 else (digitCount c : Int) - p - 1) = floor
    by_cases hfar : leading d f < floor
    · rw [if_pos hfar]
      by_cases hd : d = 0
      · have hle : floor ≤ e := by
          split at hfloor <;> omega
        subst hd
        exact hgrid hle (by cases t <;> simp [signed])
      · exact (not_fitsAt_of_far s t hc hd hfloor.symm hfar h).elim
    · rw [if_neg hfar]
      exact hgrid hfe rfl

theorem add_exact {p : Nat} {x y : Decimal} (hx : x.isFinite = true) (hy : y.isFinite = true)
    (h : FitsAt p (x.toRat + y.toRat)) : Represents (add p x y) (x.toRat + y.toRat) := by
  cases x with
  | infinite | nan => cases hx
  | finite s c e =>
    cases y with
    | infinite | nan => cases hy
    | finite t d f =>
      simp only [add]
      split
      · next hfe => exact addScaled_exact hfe h
      · next hfe =>
        rw [add_comm] at h ⊢
        exact addScaled_exact (le_of_not_ge hfe) h

theorem toRat_negate (x : Decimal) : x.negate.toRat = -x.toRat := by
  cases x with
  | finite s c e => cases s <;> simp [negate, toRat, signed]
  | infinite | nan => simp [negate, toRat]

theorem subtract_exact {p : Nat} {x y : Decimal} (hx : x.isFinite = true) (hy : y.isFinite = true)
    (h : FitsAt p (x.toRat - y.toRat)) : Represents (subtract p x y) (x.toRat - y.toRat) := by
  have hneg : y.negate.isFinite = true := by cases y <;> simp_all [negate, isFinite]
  rw [sub_eq_add_neg, ← toRat_negate] at h ⊢
  exact add_exact hx hneg h

theorem multiply_exact {p : Nat} {x y : Decimal} (hx : x.isFinite = true) (hy : y.isFinite = true)
    (h : FitsAt p (x.toRat * y.toRat)) : Represents (multiply p x y) (x.toRat * y.toRat) := by
  cases x with
  | infinite | nan => cases hx
  | finite s c e =>
    cases y with
    | infinite | nan => cases hy
    | finite t d f =>
      have hproduct : (Decimal.finite s c e).toRat * (Decimal.finite t d f).toRat =
          (signed (s != t) (c * d) : Rat) * 10 ^ (e + f) := by
        rw [← signed_mul, toRat, toRat, tens_add]
        push_cast
        ring
      rw [hproduct] at h ⊢
      exact rounded_exact h

theorem abs_exact {p : Nat} {x : Decimal} (hx : x.isFinite = true) (h : FitsAt p x.toRat) :
    Represents (abs p x) |x.toRat| := by
  cases x with
  | infinite | nan => cases hx
  | finite s c e =>
    have habs := h.abs
    rw [abs_toRat_finite] at habs ⊢
    exact @rounded_exact p false c e habs

theorem round_exact {p : Nat} {x : Decimal} (hx : x.isFinite = true) (h : FitsAt p x.toRat) :
    Represents (x.round p) x.toRat := by
  cases x with
  | infinite | nan => cases hx
  | finite s c e => exact rounded_exact h

end Abacus.Decimal
