import Abacus.Proofs.Rounding.Even

/-! Rounding half up to some places after the point. Of a number that was rounded half to even to a
finer grid before, it gives what it gives of the number itself raised by half a unit of that grid.
The two results differ where a tie lies in between. -/

namespace Abacus

open Number Decimal

/-- The magnitude `q` with `places` digits after the point, a half rounded up. -/
def halfUp (places : Nat) (q : Rat) : Rat :=
  (⌊q * 10 ^ places + 1 / 2⌋ : Int) / 10 ^ places

/-- The magnitude `m` with the sign of `q`. -/
def withSign (q m : Rat) : Rat :=
  if q < 0 then -m else m

/-- The number `q` with `places` digits after the point, a half rounded away from zero. -/
def toPlaces (places : Nat) (q : Rat) : Rat :=
  withSign q (halfUp places |q|)

/-- The tie between `k` and `k + 1` units of the last place lies above `q`, by `reach` at most. -/
def BelowTie (places : Nat) (reach q : Rat) (k : Nat) : Prop :=
  q < (k + 1 / 2) / 10 ^ places ∧ (k + 1 / 2) / 10 ^ places ≤ q + reach

section HalfUp

variable {places : Nat} {q w reach : Rat} {j : Int} {k : Nat}

theorem unit_pos (places : Nat) : (0 : Rat) < 10 ^ places :=
  pow_pos (by norm_num) places

theorem hundredth (places : Nat) : (10 : Rat) ^ (-places - 2 : Int) * 10 ^ places = 1 / 100 := by
  rw [← zpow_natCast, ← tens_add, show (-places - 2 + places : Int) = -2 by omega]
  norm_num

/-- Rounding keeps what has no more digits than there are places, also if it is raised a little. -/
theorem halfUp_add_of_multiple {n : Int} (h : q * 10 ^ places = n) (hreach : 0 ≤ reach)
    (hreach' : reach ≤ 10 ^ (-places - 2 : Int)) : halfUp places (q + reach) = q := by
  have hmul := mul_le_mul_of_nonneg_right hreach' (unit_pos places).le
  have hnonneg : 0 ≤ reach * 10 ^ places := mul_nonneg hreach (unit_pos places).le
  rw [hundredth] at hmul
  have hfloor : ⌊(q + reach) * 10 ^ places + 1 / 2⌋ = n := by
    rw [add_mul, h, Int.floor_eq_iff]
    constructor <;> linarith
  rw [halfUp, hfloor, ← h, mul_div_cancel_right₀ _ (unit_pos places).ne']

theorem halfUp_of_multiple {n : Int} (h : q * 10 ^ places = n) : halfUp places q = q := by
  simpa using halfUp_add_of_multiple h le_rfl (tens_pos _).le

/-- The ties lie on even points of a grid that is a hundred times finer, or more. -/
theorem halfUp_even (hj : j + 2 ≤ -places) (h : RoundsToEven (10 ^ j) q w) :
    halfUp places w = halfUp places (q + 10 ^ j / 2) := by
  have hfloor : ⌊w * 10 ^ places + 1 / 2⌋ = ⌊(q + 10 ^ j / 2) * 10 ^ places + 1 / 2⌋ := by
    refine eq_of_forall_le_iff (fun n => ?_)
    rw [Int.le_floor, Int.le_floor]
    obtain ⟨m, heven, hm⟩ : ∃ m : Int, Even m ∧ (n - 1 / 2 : Rat) = m * 10 ^ j * 10 ^ places := by
      refine ⟨(2 * n - 1) * 5 * 10 ^ (-places - 1 - j).toNat, ?_, ?_⟩
      · refine Even.mul_left ?_ _
        exact (show Even (10 : Int) by decide).pow_of_ne_zero (by omega)
      · have hgrid := tens_on_grid (show j ≤ -places - 1 by omega)
        rw [tens_sub_one, zpow_neg, zpow_natCast, Nat.cast_pow, Nat.cast_ofNat] at hgrid
        have hne := (unit_pos places).ne'
        push_cast
        rw [mul_assoc _ _ ((10 : Rat) ^ j), ← hgrid]
        field_simp
        ring
    have hiff := h.even_le_iff (tens_pos j) heven
    have hpos := unit_pos places
    constructor
    · intro hle
      have hw : (m : Rat) * 10 ^ j ≤ w := le_of_mul_le_mul_right (by linarith) hpos
      have hq := mul_le_mul_of_nonneg_right (hiff.mp hw) hpos.le
      linarith
    · intro hle
      have hq : (m : Rat) * 10 ^ j - 10 ^ j / 2 ≤ q := by
        have hmul : (m : Rat) * 10 ^ j ≤ q + 10 ^ j / 2 :=
          le_of_mul_le_mul_right (by linarith) hpos
        linarith
      have hw := mul_le_mul_of_nonneg_right (hiff.mpr hq) hpos.le
      linarith
  rw [halfUp, halfUp, hfloor]

theorem halfUp_of_belowTie (hreach : reach * 10 ^ places < 1) (h : BelowTie places reach q k) :
    halfUp places (q + reach) = (k + 1) / 10 ^ places := by
  have hpos := unit_pos places
  obtain ⟨hbelow, habove⟩ := h
  rw [lt_div_iff₀ hpos] at hbelow
  rw [div_le_iff₀ hpos] at habove
  have hfloor : ⌊(q + reach) * 10 ^ places + 1 / 2⌋ = k + 1 := by
    rw [Int.floor_eq_iff]
    push_cast
    constructor <;> linarith
  rw [halfUp, hfloor]
  push_cast
  rfl

theorem halfUp_of_not_belowTie (hq : 0 ≤ q) (hreach : 0 ≤ reach)
    (h : ∀ k, ¬ BelowTie places reach q k) : halfUp places (q + reach) = halfUp places q := by
  have hpos := unit_pos places
  have hnonneg : 0 ≤ ⌊q * 10 ^ places + 1 / 2⌋ := Int.floor_nonneg.mpr (by positivity)
  have hlow := Int.floor_le (q * 10 ^ places + 1 / 2)
  have hhigh := Int.lt_floor_add_one (q * 10 ^ places + 1 / 2)
  have hfloor : ⌊(q + reach) * 10 ^ places + 1 / 2⌋ = ⌊q * 10 ^ places + 1 / 2⌋ := by
    obtain ⟨k, hk⟩ := Int.eq_ofNat_of_zero_le hnonneg
    rw [hk] at hlow hhigh ⊢
    push_cast at hlow hhigh
    have hmul : 0 ≤ reach * 10 ^ places := by positivity
    rw [Int.floor_eq_iff]
    push_cast
    constructor
    · linarith
    · by_contra hge
      refine h k ⟨?_, ?_⟩
      · rw [lt_div_iff₀ hpos]
        linarith
      · rw [div_le_iff₀ hpos]
        linarith
  rw [halfUp, halfUp, hfloor]

/-- Two digits more than there are places make no unit. -/
theorem halfUp_of_small (hq : 0 ≤ q) (hreach : 0 ≤ reach) (hq' : q ≤ 10 ^ (-places - 2 : Int))
    (hreach' : reach ≤ 10 ^ (-places - 2 : Int)) : halfUp places (q + reach) = 0 := by
  have hpos := unit_pos places
  have hmul : (q + reach) * 10 ^ places ≤ 1 / 50 := by
    calc (q + reach) * 10 ^ places
        ≤ (10 ^ (-places - 2 : Int) + 10 ^ (-places - 2 : Int)) * 10 ^ places :=
          mul_le_mul_of_nonneg_right (add_le_add hq' hreach') hpos.le
      _ = 1 / 50 := by
          rw [add_mul, hundredth]
          norm_num
  have hfloor : ⌊(q + reach) * 10 ^ places + 1 / 2⌋ = 0 := by
    rw [Int.floor_eq_zero_iff]
    constructor
    · positivity
    · linarith
  rw [halfUp, hfloor, Int.cast_zero, zero_div]

/-- Quantizing rounds half up, away from zero for both signs. -/
theorem quantized_halfUp (places : Nat) (s : Bool) (c : Nat) (e : Int) :
    ∃ k f, quantized (-places) (.finite s c e) = .finite s k f ∧
      (k : Rat) * 10 ^ f = halfUp places (c * 10 ^ e) := by
  have hten : (10 : Rat) ^ (-places : Int) = (10 ^ places)⁻¹ := by rw [zpow_neg, zpow_natCast]
  by_cases he : -(places : Int) ≤ e
  · refine ⟨c, e, by rw [quantized, if_pos he], ?_⟩
    have hscale := scale_down (c : Rat) he
    have hn : (c : Rat) * 10 ^ e * 10 ^ places = ((c * 10 ^ (e - -places).toNat : Nat) : Int) := by
      rw [hscale, hten, mul_assoc, inv_mul_cancel₀ (unit_pos places).ne', mul_one]
      push_cast
      rfl
    exact (halfUp_of_multiple hn).symm
  · have hd : 0 < 10 ^ (-places - e).toNat := by positivity
    have hgrid := tens_on_grid (show e ≤ -places by omega)
    have hquotient : (c : Rat) * 10 ^ e * 10 ^ places = c / (10 ^ (-places - e).toNat : Nat) := by
      rw [hten] at hgrid
      generalize 10 ^ (-places - e).toNat = d at hd hgrid ⊢
      have hone : (d : Rat) * 10 ^ e * 10 ^ places = 1 := by
        rw [← hgrid, inv_mul_cancel₀ (unit_pos places).ne']
      rw [eq_div_iff (Nat.cast_ne_zero.mpr hd.ne')]
      calc (c : Rat) * 10 ^ e * 10 ^ places * d = c * (d * 10 ^ e * 10 ^ places) := by ring
        _ = c := by rw [hone, mul_one]
    refine ⟨_, _, by rw [quantized, if_neg he], ?_⟩
    rw [halfUp, hquotient, floor_div_add_half c hd s, dropDigits_eq, hten, ← div_eq_mul_inv]
    push_cast
    rfl

end HalfUp

end Abacus
