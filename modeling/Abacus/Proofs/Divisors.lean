import Abacus.System.Fraction
import Mathlib.Algebra.Order.Field.Basic
import Mathlib.Algebra.Order.Field.Rat
import Mathlib.RingTheory.Coprime.Lemmas
import Mathlib.Tactic.FieldSimp
import Mathlib.Tactic.LinearCombination

/-! The greatest common divisor and the least common multiple of two fractions, with divisibility
by integer quotients. Both are right because fractions are kept in lowest terms. -/

namespace Abacus.Fraction

def IsMultiple (x t : Rat) : Prop :=
  ∃ k : Int, x = k * t

/-- A positive `g` that leaves coprime integers of both numbers, and which everything divides that
divides both. -/
structure IsGreatestDivisor (g x y : Rat) : Prop where
  pos : 0 < g
  coprime : ∃ m n : Int, x / g = m ∧ y / g = n ∧ IsCoprime m n
  greatest : ∀ t, IsMultiple x t → IsMultiple y t → IsMultiple g t

/-- A positive common multiple that divides every other one. -/
structure IsLeastMultiple (l x y : Rat) : Prop where
  pos : 0 < l
  left : IsMultiple l x
  right : IsMultiple l y
  least : ∀ t, IsMultiple t x → IsMultiple t y → IsMultiple t l

variable {x y : Rat}

theorem gcd_num_pos (h : x ≠ 0 ∨ y ≠ 0) : 0 < Int.gcd x.num y.num :=
  Int.gcd_pos_iff.mpr (h.imp Rat.num_ne_zero.mpr Rat.num_ne_zero.mpr)

theorem gcd_pos (h : x ≠ 0 ∨ y ≠ 0) : 0 < gcd x y := by
  have hnum := gcd_num_pos h
  have hden : 0 < Nat.lcm x.den y.den := Nat.lcm_pos x.pos y.pos
  rw [gcd, Rat.mkRat_eq_div]
  exact div_pos (by exact_mod_cast hnum) (by exact_mod_cast hden)

/-- Numerators and denominators without their common factors. -/
theorem exists_parts (h : x ≠ 0 ∨ y ≠ 0) :
    ∃ (a c : Int) (b d G K : Nat), IsCoprime a c ∧ Nat.Coprime b d ∧
      x.num = a * G ∧ y.num = c * G ∧ x.den = b * K ∧ y.den = d * K ∧
      gcd x y = G / (b * d * K : Nat) := by
  obtain ⟨a, c, hac, ha, hc⟩ := Int.exists_gcd_one (gcd_num_pos h)
  obtain ⟨b, d, hbd, hb, hd⟩ := Nat.exists_coprime x.den y.den
  refine ⟨a, c, b, d, _, _, Int.isCoprime_iff_gcd_eq_one.mpr hac, hbd, ha, hc, hb, hd, ?_⟩
  have hprod := Nat.gcd_mul_lcm x.den y.den
  have hlcm : Nat.lcm x.den y.den = b * d * Nat.gcd x.den y.den := by
    refine Nat.eq_of_mul_eq_mul_left (Nat.gcd_pos_of_pos_left y.den x.pos) ?_
    rw [hprod]
    linear_combination d * Nat.gcd x.den y.den * hb + x.den * hd
  rw [gcd, Rat.mkRat_eq_div, hlcm, Int.cast_natCast]

/-- The quotients are `a * d` and `c * b` of these parts: no factor is in both, for none is in `a`
and `b` or in `c` and `d`. -/
theorem exists_coprime_quotients (h : x ≠ 0 ∨ y ≠ 0) :
    ∃ m n : Int, x = m * gcd x y ∧ y = n * gcd x y ∧ IsCoprime m n := by
  obtain ⟨a, c, b, d, G, K, hac, hbd, ha, hc, hb, hd, hg⟩ := exists_parts h
  have hx : IsCoprime x.num x.den := Int.isCoprime_iff_gcd_eq_one.mpr x.reduced
  have hy : IsCoprime y.num y.den := Int.isCoprime_iff_gcd_eq_one.mpr y.reduced
  have hr : ((b * K : Nat) : Rat) ≠ 0 := by exact_mod_cast hb ▸ x.den_ne_zero
  have hs : ((d * K : Nat) : Rat) ≠ 0 := by exact_mod_cast hd ▸ y.den_ne_zero
  push_cast [mul_ne_zero_iff] at hr hs
  obtain ⟨hb0, hK0⟩ := hr
  have hd0 := hs.1
  refine ⟨a * d, c * b, ?_, ?_, ?_⟩
  · rw [hg, ← Rat.num_div_den x, ha, hb]
    push_cast
    field_simp
  · rw [hg, ← Rat.num_div_den y, hc, hd]
    push_cast
    field_simp
  · rw [ha, hb, Nat.cast_mul] at hx
    rw [hc, hd, Nat.cast_mul] at hy
    have hab : IsCoprime a b := hx.of_mul_left_left.of_mul_right_left
    have hcd : IsCoprime c d := hy.of_mul_left_left.of_mul_right_left
    exact (hac.mul_right hab).mul_left (hcd.symm.mul_right hbd.symm.isCoprime)

theorem gcd_mul_lcm (hx : x ≠ 0) (hy : y ≠ 0) : gcd x y * lcm x y = |x * y| := by
  have hnum : (Int.gcd x.num y.num : Rat) * Int.lcm x.num y.num = |(x.num : Rat) * y.num| := by
    rw [← Int.cast_mul, ← Int.cast_abs, Int.abs_eq_natAbs, Int.natAbs_mul, ← Int.gcd_mul_lcm]
    push_cast
    rfl
  have hden : (Nat.gcd x.den y.den : Rat) * Nat.lcm x.den y.den = x.den * y.den := by
    exact_mod_cast Nat.gcd_mul_lcm x.den y.den
  have hxy : x * y = x.num * y.num / (x.den * y.den) := by
    rw [← div_mul_div_comm, Rat.num_div_den, Rat.num_div_den]
  rw [gcd, lcm, if_neg (not_or.mpr ⟨hx, hy⟩), Rat.mkRat_eq_div, Rat.mkRat_eq_div,
    div_mul_div_comm, Int.cast_natCast, Int.cast_natCast, hnum, mul_comm (Nat.lcm _ _ : Rat), hden,
    hxy, abs_div, abs_of_nonneg (mul_nonneg (Nat.cast_nonneg x.den) (Nat.cast_nonneg y.den) :
      (0 : Rat) ≤ x.den * y.den)]

theorem gcd_isGreatestDivisor (h : x ≠ 0 ∨ y ≠ 0) : IsGreatestDivisor (gcd x y) x y := by
  obtain ⟨m, n, hm, hn, hcoprime⟩ := exists_coprime_quotients h
  have hpos := gcd_pos h
  refine ⟨hpos, ⟨m, n, ?_, ?_, hcoprime⟩, ?_⟩
  · exact (div_eq_iff hpos.ne').mpr hm
  · exact (div_eq_iff hpos.ne').mpr hn
  · -- the greatest divisor is a combination of the two numbers
    rintro t ⟨i, hi⟩ ⟨j, hj⟩
    obtain ⟨u, v, huv⟩ := hcoprime
    have hone : (u * m + v * n : Rat) = 1 := by exact_mod_cast huv
    refine ⟨u * i + v * j, ?_⟩
    calc gcd x y = (u * m + v * n) * gcd x y := by rw [hone, one_mul]
      _ = u * x + v * y := by linear_combination -u * hm - v * hn
      _ = ((u * i + v * j : Int) : Rat) * t := by push_cast; linear_combination u * hi + v * hj

theorem lcm_isLeastMultiple (hx : x ≠ 0) (hy : y ≠ 0) : IsLeastMultiple (lcm x y) x y := by
  have hpos := gcd_pos (.inl hx : x ≠ 0 ∨ y ≠ 0)
  have hprod := gcd_mul_lcm hx hy
  obtain ⟨m, n, hm, hn, hcoprime⟩ := exists_coprime_quotients (.inl hx : x ≠ 0 ∨ y ≠ 0)
  generalize gcd x y = g at *
  obtain ⟨s, hs, habs⟩ : ∃ s : Int, s * s = 1 ∧ |m * n| = s * (m * n) := by
    rcases abs_choice (m * n) with h | h
    · exact ⟨1, rfl, by rw [h, one_mul]⟩
    · exact ⟨-1, rfl, by rw [h, neg_one_mul]⟩
  have hss : (s * s : Rat) = 1 := by exact_mod_cast hs
  have hlcm : lcm x y = s * m * n * g := by
    have hcast : |(m * n : Rat)| = s * (m * n) := by exact_mod_cast habs
    refine mul_left_cancel₀ hpos.ne' ?_
    rw [hprod, hm, hn, mul_mul_mul_comm, abs_mul, hcast, abs_of_pos (mul_pos hpos hpos)]
    ring
  refine ⟨?_, ⟨s * n, ?_⟩, ⟨s * m, ?_⟩, ?_⟩
  · exact pos_of_mul_pos_right (hprod ▸ abs_pos.mpr (mul_ne_zero hx hy)) hpos.le
  · rw [hlcm, hm]
    push_cast
    ring
  · rw [hlcm, hn]
    push_cast
    ring
  · rintro t ⟨i, hi⟩ ⟨j, hj⟩
    -- the quotient by `x` has the factors of `n`, which are not in `m`
    have hcross : (i * m : Rat) = j * n := by
      refine mul_right_cancel₀ hpos.ne' ?_
      rw [mul_assoc, mul_assoc, ← hm, ← hn, ← hi, ← hj]
    have hcross : i * m = j * n := by exact_mod_cast hcross
    obtain ⟨k, rfl⟩ := hcoprime.symm.dvd_of_dvd_mul_right ⟨j, by rw [hcross, mul_comm]⟩
    refine ⟨s * k, ?_⟩
    rw [hi, hlcm, hm]
    push_cast
    linear_combination -(n * k * m * g) * hss

/-- The built-in functions give the greatest common divisor and the least common multiple. -/
theorem gcd_lcm_divide (digits : Int) (limit : Option Nat) (x y : Rat) (r : Resources Rat) :
    ∃ f h, (system digits limit).builtin? "gcd" = some f ∧
      (system digits limit).builtin? "lcm" = some h ∧
      ∃ g l, f.run [x, y] r = .ok g r ∧ h.run [x, y] r = .ok l r ∧
        ((x ≠ 0 ∨ y ≠ 0) → IsGreatestDivisor g x y) ∧
        (x ≠ 0 ∧ y ≠ 0 → IsLeastMultiple l x y ∧ g * l = |x * y|) ∧
        (x = 0 ∨ y = 0 → l = 0) := by
  refine ⟨_, _, rfl, rfl, gcd x y, lcm x y, rfl, rfl, gcd_isGreatestDivisor, ?_, fun h => ?_⟩
  · rintro ⟨hx, hy⟩
    exact ⟨lcm_isLeastMultiple hx hy, gcd_mul_lcm hx hy⟩
  · rw [lcm, if_pos h]

/-- Of `-4/3` and `6/5` the greatest common divisor is `2/15`, and the least common multiple `12`. -/
theorem gcd_lcm_of_opposite_signs :
    IsGreatestDivisor (2 / 15) (-4 / 3) (6 / 5) ∧ IsLeastMultiple 12 (-4 / 3) (6 / 5) ∧
      (2 / 15 * 12 : Rat) = |-4 / 3 * (6 / 5)| ∧ lcm 0 (6 / 5) = 0 := by
  have hgcd : gcd (-4 / 3) (6 / 5) = 2 / 15 := by decide +kernel
  have hlcm : lcm (-4 / 3) (6 / 5) = 12 := by decide +kernel
  obtain ⟨_, _, hf, hh, _, _, hg, hl, hgreatest, hleast, -⟩ :=
    gcd_lcm_divide 2 none (-4 / 3) (6 / 5) ((system 2 none).resources 0 [])
  cases hf
  cases hh
  cases hg
  cases hl
  obtain ⟨_, _, -, hh, _, _, -, hl, -, -, hzero⟩ :=
    gcd_lcm_divide 2 none 0 (6 / 5) ((system 2 none).resources 0 [])
  cases hh
  cases hl
  have hboth := hleast ⟨by decide +kernel, by decide +kernel⟩
  have hone := hgreatest (.inl (by decide +kernel))
  rw [hgcd] at hone
  rw [hgcd, hlcm] at hboth
  exact ⟨hone, hboth.1, hboth.2, hzero (.inl rfl)⟩

end Abacus.Fraction
