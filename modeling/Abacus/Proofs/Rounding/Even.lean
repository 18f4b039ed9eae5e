import Abacus.Proofs.Exact.Integers
import Mathlib.Algebra.Order.Ring.Abs
import Mathlib.Tactic.Ring

/-! Rounding half to even, as a relation between a number and its neighbour on a grid. Numbers
between the same two points of a finer grid have the same neighbour, so that a quotient can be cut
off behind some guard digits, as long as one more digit tells that something was cut off. -/

namespace Abacus

open Number Decimal

/-- A power of ten on a finer grid. -/
theorem Decimal.tens_on_grid {e g : Int} (h : g ≤ e) :
    (10 : Rat) ^ e = (10 ^ (e - g).toNat : Nat) * 10 ^ g := by
  have hscale := scale_down 1 h
  rwa [one_mul, one_mul] at hscale

theorem Decimal.tens_sub_one (g : Int) : (10 : Rat) ^ (g - 1) = 1 / 10 * 10 ^ g := by
  rw [sub_eq_add_neg, add_comm, tens_add]
  norm_num

/-- `w` is the multiple of `u` that is nearest to `q`, the even one if there are two. -/
def RoundsToEven (u q w : Rat) : Prop :=
  ∃ m : Int, w = m * u ∧ |w - q| ≤ u / 2 ∧ (|w - q| = u / 2 → Even m)

namespace RoundsToEven

variable {u q w : Rat}

theorem self (hu : 0 < u) (m : Int) : RoundsToEven u (m * u) (m * u) := by
  have hzero : |(m : Rat) * u - m * u| = 0 := by rw [sub_self, abs_zero]
  refine ⟨m, rfl, ?_, fun htie => ?_⟩
  · rw [hzero]
    linarith
  · rw [hzero] at htie
    linarith

theorem scale (h : RoundsToEven u q w) {k : Rat} (hk : 0 < k) :
    RoundsToEven (u * k) (q * k) (w * k) := by
  obtain ⟨m, rfl, hnear, heven⟩ := h
  have hdist : |m * u * k - q * k| = |m * u - q| * k := by
    rw [← sub_mul, abs_mul, abs_of_pos hk]
  have hhalf : u * k / 2 = u / 2 * k := by ring
  refine ⟨m, mul_assoc _ _ _, ?_, fun htie => heven ?_⟩
  · rw [hdist, hhalf]
    exact mul_le_mul_of_nonneg_right hnear hk.le
  · rw [hdist, hhalf] at htie
    exact mul_right_cancel₀ hk.ne' htie

/-- A multiple of the unit bounds the result if it bounds the number. -/
theorem le_of_le (h : RoundsToEven u q w) (hu : 0 < u) {n : Int} (hn : q ≤ n * u) :
    w ≤ n * u := by
  obtain ⟨m, rfl, hnear, -⟩ := h
  have hbelow := (abs_le.mp hnear).2
  have hlt : (m : Rat) * u < (n + 1) * u := by linarith
  have hcast : (m : Rat) < n + 1 := lt_of_mul_lt_mul_right hlt hu.le
  have hint : m ≤ n := Int.lt_add_one_iff.mp (by exact_mod_cast hcast)
  exact mul_le_mul_of_nonneg_right (Int.cast_le.mpr hint) hu.le

/-- An even multiple is reached from half a unit below it. -/
theorem even_le_iff (h : RoundsToEven u q w) (hu : 0 < u) {n : Int} (hn : Even n) :
    n * u ≤ w ↔ n * u - u / 2 ≤ q := by
  obtain ⟨m, rfl, hnear, heven⟩ := h
  obtain ⟨hlow, hhigh⟩ := abs_le.mp hnear
  constructor
  · intro hle
    linarith
  · intro hle
    have hlt : (n - 1 : Rat) * u ≤ m * u := by linarith
    have hcast : (n - 1 : Rat) ≤ m := le_of_mul_le_mul_right hlt hu
    have hint : n - 1 ≤ m := by exact_mod_cast hcast
    by_cases heq : m = n - 1
    · -- then the number lies half way between both
      have hdist : |(m : Rat) * u - q| = u / 2 := by
        refine le_antisymm hnear ?_
        rw [abs_sub_comm]
        refine le_trans ?_ (le_abs_self _)
        rw [heq]
        push_cast
        linarith
      have hodd : Even (n - 1) := heq ▸ heven hdist
      exact absurd hn (Int.even_sub_one.mp hodd)
    · have hle' : n ≤ m := by omega
      exact mul_le_mul_of_nonneg_right (Int.cast_le.mpr hle') hu.le

theorem neg (h : RoundsToEven u q w) : RoundsToEven u (-q) (-w) := by
  obtain ⟨m, rfl, hnear, heven⟩ := h
  have hdist : |-(m * u) - -q| = |m * u - q| := by rw [← neg_sub', abs_neg]
  refine ⟨-m, by push_cast; rw [neg_mul], ?_, fun htie => ?_⟩
  · rwa [hdist]
  · rw [hdist] at htie
    exact (heven htie).neg

theorem eq_of_multiple (hu : 0 < u) {n : Int} (h : RoundsToEven u (n * u) w) : w = n * u := by
  have hle := h.le_of_le hu le_rfl
  have hge := h.neg.le_of_le hu (n := -n) (by push_cast; linarith)
  push_cast at hge
  linarith

/-- Between two multiples of `v` no number is a tie, if half of the unit is a multiple of `v`. -/
theorem of_cell {v : Rat} (hv : 0 < v) {b : Int} (hb : u / 2 = b * v) {k : Int} {q' : Rat}
    (hq : k * v < q ∧ q < (k + 1) * v) (hq' : k * v < q' ∧ q' < (k + 1) * v)
    (h : RoundsToEven u q' w) : RoundsToEven u q w := by
  obtain ⟨m, rfl, hnear, -⟩ := h
  obtain ⟨hlow, hhigh⟩ := abs_le.mp hnear
  have hw : (m : Rat) * u = (2 * m * b : Int) * v := by
    have hdouble : u = 2 * (b * v) := by rw [← hb]; ring
    rw [hdouble]
    push_cast
    ring
  rw [hb, hw] at hlow hhigh
  have hbelow : ((2 * m * b - b : Int) : Rat) * v < (k + 1) * v := by
    push_cast at hhigh ⊢
    linarith
  have habove : (k : Rat) * v < ((2 * m * b + b : Int) : Rat) * v := by
    push_cast at hlow ⊢
    linarith
  have hbelow' : 2 * m * b - b ≤ k := by
    have hcast := lt_of_mul_lt_mul_right hbelow hv.le
    exact Int.lt_add_one_iff.mp (by exact_mod_cast hcast)
  have habove' : k + 1 ≤ 2 * m * b + b := by
    have hcast := lt_of_mul_lt_mul_right habove hv.le
    exact_mod_cast hcast
  have hstrict : |(m : Rat) * u - q| < u / 2 := by
    have h1 : ((2 * m * b - b : Int) : Rat) * v ≤ k * v :=
      mul_le_mul_of_nonneg_right (Int.cast_le.mpr hbelow') hv.le
    have h2 : ((k : Rat) + 1) * v ≤ ((2 * m * b + b : Int) : Rat) * v := by
      refine mul_le_mul_of_nonneg_right ?_ hv.le
      exact_mod_cast habove'
    rw [hb, hw, abs_lt]
    push_cast at h1 h2 ⊢
    constructor <;> linarith
  exact ⟨m, rfl, hstrict.le, fun htie => absurd htie hstrict.ne⟩

/-- Between two points of a grid no number is a tie of a grid that is ten times coarser, or more. -/
theorem between {g j : Int} (hgj : g < j) {k : Int} {q' : Rat}
    (hq : k * 10 ^ g < q ∧ q < (k + 1) * 10 ^ g) (hq' : k * 10 ^ g < q' ∧ q' < (k + 1) * 10 ^ g)
    (h : RoundsToEven (10 ^ j) q' w) : RoundsToEven (10 ^ j) q w := by
  -- half of the coarse unit is a multiple of the fine one
  have hb : (10 : Rat) ^ j / 2 = (5 * 10 ^ (j - g - 1).toNat : Int) * 10 ^ g := by
    have hten := tens_on_grid (show g ≤ j - 1 by omega)
    rw [tens_sub_one, show j - 1 - g = j - g - 1 by omega, Nat.cast_pow, Nat.cast_ofNat] at hten
    push_cast
    linarith
  exact h.of_cell (tens_pos g) hb hq hq'

end RoundsToEven

namespace Number

theorem divRound_even (s : Bool) (n : Nat) {d : Nat} (hd : 0 < d) :
    RoundsToEven 1 ((n : Rat) / d) (divRound .halfEven s n d) := by
  have hpos : (0 : Rat) < d := Nat.cast_pos.mpr hd
  have hround : divRound .halfEven s n d =
      if d < 2 * (n % d) ∨ 2 * (n % d) = d ∧ n / d % 2 = 1 then n / d + 1 else n / d := by
    by_cases hr : n % d = 0
    · simp [divRound, hr, hd.ne]
    · simp [divRound, hr, Rounding.up]
  have hlt : ((n % d : Nat) : Rat) / d < 1 :=
    (div_lt_one hpos).mpr (Nat.cast_lt.mpr (Nat.mod_lt n hd))
  have hnonneg : (0 : Rat) ≤ ((n % d : Nat) : Rat) / d := by positivity
  have hbelow : ((n % d : Nat) : Rat) / d ≤ 1 / 2 ↔ 2 * (n % d) ≤ d := by
    rw [div_le_div_iff₀ hpos (by norm_num)]
    norm_cast
    omega
  have habove : 1 / 2 ≤ ((n % d : Nat) : Rat) / d ↔ d ≤ 2 * (n % d) := by
    rw [div_le_div_iff₀ (by norm_num) hpos]
    norm_cast
    omega
  rw [hround, div_eq_add n hd]
  generalize hq : n / d = k at *
  generalize n % d = r at *
  by_cases hup : d < 2 * r ∨ 2 * r = d ∧ k % 2 = 1
  · have hdist : |((k + 1 : Nat) : Rat) - (k + (r : Rat) / d)| = 1 - r / d := by
      push_cast
      rw [add_sub_add_left_eq_sub, abs_of_nonneg (by linarith)]
    have hge := habove.mpr (by omega)
    rw [if_pos hup]
    refine ⟨(k + 1 : Nat), by simp, ?_, fun htie => ?_⟩
    · rw [hdist]
      linarith
    · rw [hdist] at htie
      have hle := hbelow.mp (by linarith)
      have hodd : k % 2 = 1 := by omega
      rw [Int.even_coe_nat, Nat.even_add_one, Nat.not_even_iff]
      exact hodd
  · have hdist : |(k : Rat) - (k + (r : Rat) / d)| = r / d := by
      rw [sub_add_cancel_left, abs_neg, abs_of_nonneg hnonneg]
    have hle := hbelow.mpr (by omega)
    rw [if_neg hup]
    refine ⟨(k : Nat), by simp, ?_, fun htie => ?_⟩
    · rw [hdist]
      exact hle
    · rw [hdist] at htie
      have hge := habove.mp htie.ge
      have heven : k % 2 = 0 := by omega
      rw [Int.even_coe_nat, Nat.even_iff]
      exact heven

end Number

namespace Decimal

variable {p : Nat} {c k : Nat} {e f g L : Int}

theorem bounded_eq (s : Bool) (hzero : k = 0 → f ≤ limit)
    (h : (k : Rat) * 10 ^ f < 10 ^ ((limit : Int) + 1)) : bounded s k f = .finite s k f := by
  have hle : leading k f ≤ limit := by
    by_cases hk : k = 0
    · have hone : digitCount 0 = 1 := by decide
      have hf := hzero hk
      rw [hk, leading, hone]
      omega
    · exact leading_le_of_lt hk h
  rw [bounded, if_neg (not_lt.mpr hle)]

theorem leading_eq (hlow : (10 : Rat) ^ L ≤ c * 10 ^ e) (hhigh : (c : Rat) * 10 ^ e < 10 ^ (L + 1)) :
    c ≠ 0 ∧ leading c e = L := by
  have hc : c ≠ 0 := by
    rintro rfl
    rw [Nat.cast_zero, zero_mul] at hlow
    exact absurd (tens_pos L) (not_lt.mpr hlow)
  have hle := leading_le_of_lt hc hhigh
  have hge := tens_lt_iff.mp (lt_of_le_of_lt hlow (lt_tens_leading c e))
  exact ⟨hc, by omega⟩

/-- Where the last digit of a number with the leading digit at `L` is. -/
def lastPlace (precision : Nat) (L : Int) : Int :=
  max (L + 1 - precision) (tiniest precision)

/-- What is kept of a coefficient if its digits below the place `j` are dropped. -/
def kept (s : Bool) (c : Nat) (e j : Int) : Nat :=
  if (j - e).toNat = 0 then c else dropDigits .halfEven s c (j - e).toNat

/-- Dropping digits rounds half to even. -/
theorem kept_even (s : Bool) (c : Nat) (e j : Int) :
    RoundsToEven (10 ^ j) (c * 10 ^ e) (kept s c e j * 10 ^ (e + (j - e).toNat)) := by
  unfold kept
  by_cases hj : j ≤ e
  · have hzero : (j - e).toNat = 0 := by omega
    have hself := RoundsToEven.self (tens_pos j) (c * (10 ^ (e - j).toNat : Nat) : Int)
    push_cast at hself
    rw [if_pos hzero, hzero, Nat.cast_zero, add_zero, scale_down (c : Rat) hj]
    push_cast
    exact hself
  · have hne : (j - e).toNat ≠ 0 := by omega
    have hsum : e + (j - e).toNat = j := by omega
    have heven := (divRound_even s c (show 0 < 10 ^ (j - e).toNat by positivity)).scale (tens_pos j)
    have hvalue : (c : Rat) / (10 ^ (j - e).toNat : Nat) * 10 ^ j = c * 10 ^ e := by
      rw [tens_on_grid (show e ≤ j by omega), ← mul_assoc, div_mul_cancel₀]
      positivity
    rw [if_neg hne, hsum, dropDigits_eq]
    rwa [one_mul, hvalue] at heven

/-- A power of ten on the grid bounds what is kept. -/
theorem kept_le (s : Bool) {j t : Int} (hjt : j ≤ t) (h : (c : Rat) * 10 ^ e ≤ 10 ^ t) :
    (kept s c e j : Rat) * 10 ^ (e + (j - e).toNat) ≤ 10 ^ t := by
  have hgrid := tens_on_grid hjt
  rw [← Int.cast_natCast] at hgrid
  rw [hgrid] at h ⊢
  exact (kept_even s c e j).le_of_le (tens_pos j) h

/-- If rounding up makes one more digit, all digits but the first are zeros. -/
theorem carry_value (hp : 0 < p) (hmany : p < digitCount k) (hle : k ≤ 10 ^ p) (f : Int) :
    k / 10 ≠ 0 ∧ ((k / 10 : Nat) : Rat) * 10 ^ (f + 1) = k * 10 ^ f := by
  have hge : 10 ^ p ≤ k :=
    not_lt.mp (fun hlt => absurd ((digitCount_le_iff hp).mpr hlt) (not_le.mpr hmany))
  have heq : k = 10 ^ (p - 1) * 10 := by
    rw [← pow_succ, Nat.sub_add_cancel hp]
    omega
  have hten : k / 10 = 10 ^ (p - 1) := by omega
  constructor
  · rw [hten]
    positivity
  · rw [hten, heq, tens_add f 1, zpow_one]
    push_cast
    ring

/-- A number below a bound that fits is rounded half to even to the digits of the context. -/
theorem rounded_even_of_le (hp : 0 < p) (s : Bool) (hlow : (10 : Rat) ^ L ≤ c * 10 ^ e)
    (hhigh : (c : Rat) * 10 ^ e < 10 ^ (L + 1)) (hL : L ≤ limit) {n : Int}
    (hn : (c : Rat) * 10 ^ e ≤ n * 10 ^ lastPlace p L)
    (hrange : (n : Rat) * 10 ^ lastPlace p L < 10 ^ ((limit : Int) + 1)) :
    ∃ k f, rounded p s c e = .finite s k f ∧
      RoundsToEven (10 ^ lastPlace p L) (c * 10 ^ e) (k * 10 ^ f) := by
  obtain ⟨hc, hlead⟩ := leading_eq hlow hhigh
  have hplace : L + 1 - p ≤ lastPlace p L ∧ lastPlace p L ≤ limit := by
    unfold lastPlace tiniest
    omega
  have hround : rounded p s c e =
      if p < digitCount (kept s c e (lastPlace p L)) then
        bounded s (kept s c e (lastPlace p L) / 10) (e + (lastPlace p L - e).toNat + 1)
      else bounded s (kept s c e (lastPlace p L)) (e + (lastPlace p L - e).toNat) := by
    have hdrop : max ((digitCount c : Int) - p) (tiniest p - e) = lastPlace p L - e := by
      unfold leading at hlead
      unfold lastPlace
      omega
    rw [rounded, if_neg hc]
    dsimp only
    rw [hdrop]
    rfl
  have heven := kept_even s c e (lastPlace p L)
  have htop := kept_le s (le_max_right (L + 1) (lastPlace p L))
    (hhigh.le.trans (tens_le (le_max_left _ _)))
  have hbelow := lt_of_le_of_lt (heven.le_of_le (tens_pos _) hn) hrange
  have hexact : (lastPlace p L - e).toNat = 0 → kept s c e (lastPlace p L) = c := fun hz => if_pos hz
  rw [hround]
  clear hn hrange
  generalize lastPlace p L = j at *
  generalize kept s c e j = k at *
  by_cases hmany : p < digitCount k
  · have hsum : e + (j - e).toNat = j := by
      by_contra hne
      rw [hexact (by omega)] at hmany
      unfold leading at hlead
      omega
    have hle : k ≤ 10 ^ p := by
      rw [hsum] at htop
      have hpow : (10 : Rat) ^ max (L + 1) j ≤ (10 ^ p : Nat) * 10 ^ j := by
        rw [Nat.cast_pow, Nat.cast_ofNat, ← zpow_natCast, ← tens_add]
        exact tens_le (by omega)
      exact_mod_cast le_of_mul_le_mul_right (htop.trans hpow) (tens_pos j)
    obtain ⟨hne, hvalue⟩ := carry_value hp hmany hle (e + (j - e).toNat)
    rw [if_pos hmany, bounded_eq s (fun hz => absurd hz hne) (hvalue ▸ hbelow)]
    exact ⟨_, _, rfl, hvalue ▸ heven⟩
  · rw [if_neg hmany, bounded_eq s ?_ hbelow]
    · exact ⟨_, _, rfl, heven⟩
    · intro hz
      by_contra hne
      exact hc ((hexact (by omega)).symm.trans hz)

/-- A number is rounded half to even to the digits of the context. -/
theorem rounded_even (hp : 0 < p) (s : Bool) (hlow : (10 : Rat) ^ L ≤ c * 10 ^ e)
    (hhigh : (c : Rat) * 10 ^ e < 10 ^ (L + 1)) (hL : L < limit) :
    ∃ k f, rounded p s c e = .finite s k f ∧
      RoundsToEven (10 ^ lastPlace p L) (c * 10 ^ e) (k * 10 ^ f) := by
  have hplace : lastPlace p L < limit := by
    have hlimit : 0 < limit := by decide
    unfold lastPlace tiniest
    omega
  have hgrid := tens_on_grid (le_max_right (L + 1) (lastPlace p L))
  rw [← Int.cast_natCast] at hgrid
  refine rounded_even_of_le hp s hlow hhigh hL.le (hgrid ▸ hhigh.le.trans (tens_le ?_))
    (hgrid ▸ tens_lt_iff.mpr ?_)
  · exact le_max_left _ _
  · omega

end Decimal

end Abacus
