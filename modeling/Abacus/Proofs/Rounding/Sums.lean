import Abacus.Proofs.Rounding.Quotients

/-! Sums of decimals. A sum is the exact one rounded half to even, also where the second number lies
so far below the digits that count that a stand-in takes its place. -/

namespace Abacus.Decimal

open Number

/-- A number of the context that is nearest to `q`, the one with the even last digit if there are
two. -/
structure Rounds (p : Nat) (q : Rat) (x : Decimal) : Prop where
  finite : x.isFinite = true
  value : RoundsToEven (10 ^ lastPlace p (Int.log 10 |q|)) q x.toRat

/-- Rounding `q` stays within the range of exponents. -/
def HasRoom (p : Nat) (q : Rat) : Prop :=
  ∃ n : Int, |q| ≤ n * 10 ^ lastPlace p (Int.log 10 |q|) ∧
    (n : Rat) * 10 ^ lastPlace p (Int.log 10 |q|) < 10 ^ ((limit : Int) + 1)

variable {p : Nat} {q y : Rat} {c d : Nat} {e f L : Int}

theorem log_eq {m : Rat} (hlow : (10 : Rat) ^ L ≤ m) (hhigh : m < 10 ^ (L + 1)) :
    Int.log 10 m = L := by
  have hm : 0 < m := (tens_pos L).trans_le hlow
  obtain ⟨hlow', hhigh'⟩ := Bignumber.log_bounds hm
  have hle := tens_lt_iff.mp (lt_of_le_of_lt hlow' hhigh)
  have hge := tens_lt_iff.mp (lt_of_le_of_lt hlow hhigh')
  omega

/-- A number that fits lies on the grid of every number that is not larger. -/
theorem FitsAt.on_grid (h : FitsAt p y) (hL : (10 : Rat) ^ L ≤ |y|) :
    ∃ n : Int, y = n * 10 ^ lastPlace p L := by
  obtain ⟨m, g, rfl, hm, hg, -⟩ := h
  by_cases hplace : lastPlace p L ≤ g
  · refine ⟨m * (10 ^ (g - lastPlace p L).toNat : Nat), ?_⟩
    rw [scale_down (m : Rat) hplace]
    push_cast
    rfl
  · -- so few digits do not reach up to the leading one
    have hsmall : |(m : Rat) * 10 ^ g| < 10 ^ ((p : Int) + g) := by
      rw [abs_mul, abs_of_pos (tens_pos g), tens_add, zpow_natCast, ← Int.cast_abs,
        Int.abs_eq_natAbs]
      exact mul_lt_mul_of_pos_right (by exact_mod_cast hm) (tens_pos g)
    have hlt := tens_lt_iff.mp (lt_of_le_of_lt hL hsmall)
    unfold lastPlace at hplace
    omega

theorem FitsAt.hasRoom (h : FitsAt p y) (hq : |q| ≤ |y|) : HasRoom p q := by
  by_cases h0 : q = 0
  · exact ⟨0, by simp [h0], by simpa using tens_pos _⟩
  · have hlow := (Bignumber.log_bounds (abs_pos.mpr h0)).1
    obtain ⟨n, hn⟩ := h.abs.on_grid ((abs_abs y).symm ▸ hlow.trans hq)
    exact ⟨n, hn ▸ hq, hn ▸ h.range⟩

/-- A number that fits is a multiple of the unit to which it is rounded. -/
theorem FitsAt.multiple (h : FitsAt p q) :
    ∃ n : Int, q = n * 10 ^ lastPlace p (Int.log 10 |q|) := by
  by_cases h0 : q = 0
  · exact ⟨0, by simp [h0]⟩
  · exact h.on_grid (Bignumber.log_bounds (abs_pos.mpr h0)).1

theorem Rounds.of_represents {x : Decimal} (hx : Represents x q) (h : FitsAt p q) :
    Rounds p q x := by
  obtain ⟨hfinite, rfl⟩ := hx
  obtain ⟨n, hn⟩ := h.multiple
  have hself := RoundsToEven.self (tens_pos (lastPlace p (Int.log 10 |x.toRat|))) n
  rw [← hn] at hself
  exact ⟨hfinite, hself⟩

theorem Rounds.eq_of_fits {x : Decimal} (hx : Rounds p q x) (h : FitsAt p q) : x.toRat = q := by
  obtain ⟨n, hn⟩ := h.multiple
  have heven := hx.value
  generalize lastPlace p (Int.log 10 |q|) = j at *
  subst hn
  exact heven.eq_of_multiple (tens_pos j)

theorem Rounds.zero (p : Nat) {x : Decimal} (hx : Represents x 0) : Rounds p 0 x := by
  refine ⟨hx.finite, ?_⟩
  have hself := RoundsToEven.self (tens_pos (lastPlace p (Int.log 10 |(0 : Rat)|))) 0
  rw [hx.value]
  simpa using hself

/-- A magnitude rounds with its sign. -/
theorem Rounds.ofMagnitude {m : Rat} {s : Bool} {k : Nat} {g : Int} (hm : 0 ≤ m)
    (h : RoundsToEven (10 ^ lastPlace p (Int.log 10 m)) m (k * 10 ^ g)) :
    Rounds p ((if s then -1 else 1) * m) (.finite s k g) := by
  refine ⟨rfl, ?_⟩
  rw [toRat_eq, abs_mul, abs_of_nonneg hm]
  cases s with
  | false => simpa using h
  | true => simpa using h.neg

theorem addAligned_rounds (hp : 0 < p) (s t : Bool)
    (h : HasRoom p ((signed s c + signed t d : Int) * 10 ^ e)) :
    Rounds p ((signed s c + signed t d : Int) * 10 ^ e) (addAligned p s c t d e) := by
  unfold addAligned
  generalize signed s c + signed t d = n at h ⊢
  dsimp only
  split
  · next hn =>
    rw [hn, Int.cast_zero, zero_mul]
    exact .zero p (rounded_zero p _ e)
  · next hn =>
    have hvalue : ((n : Int) : Rat) * 10 ^ e =
        (if decide (n < 0) then -1 else 1) * ((n.natAbs : Rat) * 10 ^ e) := by
      nth_rewrite 1 [← signed_natAbs n]
      rw [signed_eq, mul_assoc]
    have habs : |((n : Int) : Rat) * 10 ^ e| = (n.natAbs : Rat) * 10 ^ e := by
      rw [abs_mul, abs_of_pos (tens_pos e), ← Int.cast_abs, Int.abs_eq_natAbs, Int.cast_natCast]
    have hpos : (0 : Rat) < (n.natAbs : Rat) * 10 ^ e :=
      mul_pos (Nat.cast_pos.mpr (Int.natAbs_pos.mpr hn)) (tens_pos e)
    obtain ⟨m, hm, hrange⟩ := h
    rw [habs] at hm hrange
    obtain ⟨hlow, hhigh⟩ := Bignumber.log_bounds hpos
    have hL := tens_lt_iff.mp (lt_of_le_of_lt hlow (lt_of_le_of_lt hm hrange))
    obtain ⟨k, g, hround, heven⟩ :=
      rounded_even_of_le hp (n < 0) hlow hhigh (by omega) hm hrange
    rw [hvalue, hround]
    exact .ofMagnitude hpos.le heven

/-- The sum of two numbers of which the second has the smaller magnitude. -/
theorem signed_add (s t : Bool) (c d : Nat) (X Y : Rat) :
    (signed s c : Rat) * X + signed t d * Y =
      (if s then -1 else 1) * (c * X + (if s = t then 1 else -1) * (d * Y)) := by
  cases s <;> cases t <;> simp [signed] <;> ring

theorem HasRoom.of_abs_eq (h : HasRoom p q) (hq : |q| = |y|) : HasRoom p y := by
  unfold HasRoom at h ⊢
  rwa [← hq]

/-- Between two multiples of `v` all magnitudes are rounded alike, if half of the unit is a multiple
of `v`. -/
theorem Rounds.of_cell {m m' v : Rat} (hv : 0 < v) {b k : Int} (hk : 0 ≤ k)
    (hm : k * v < m ∧ m < (k + 1) * v) (hm' : k * v < m' ∧ m' < (k + 1) * v)
    (hlog : Int.log 10 m' = Int.log 10 m) (hb : (10 : Rat) ^ lastPlace p (Int.log 10 m) / 2 = b * v)
    (hroom : HasRoom p m) (s : Bool) {x : Decimal} :
    HasRoom p m' ∧
      (Rounds p ((if s then -1 else 1) * m') x → Rounds p ((if s then -1 else 1) * m) x) := by
  have hcell : (0 : Rat) ≤ k * v := mul_nonneg (by exact_mod_cast hk) hv.le
  have habs : |m| = m := abs_of_pos (lt_of_le_of_lt hcell hm.1)
  have habs' : |m'| = m' := abs_of_pos (lt_of_le_of_lt hcell hm'.1)
  constructor
  · obtain ⟨n, hn, hrange⟩ := hroom
    rw [habs] at hn hrange
    refine ⟨n, ?_, ?_⟩
    · rw [habs', hlog]
      have hgrid : (n : Rat) * 10 ^ lastPlace p (Int.log 10 m) = (2 * n * b : Int) * v := by
        have hdouble : (10 : Rat) ^ lastPlace p (Int.log 10 m) = 2 * (b * v) := by
          rw [← hb]
          ring
        rw [hdouble]
        push_cast
        ring
      rw [hgrid] at hn ⊢
      have hlt : (k : Rat) < (2 * n * b : Int) :=
        lt_of_mul_lt_mul_right (lt_of_lt_of_le hm.1 hn) hv.le
      have hle : ((k : Rat) + 1) ≤ (2 * n * b : Int) := by exact_mod_cast Int.cast_lt.mp hlt
      exact hm'.2.le.trans (mul_le_mul_of_nonneg_right hle hv.le)
    · rwa [habs', hlog]
  · rintro ⟨hfinite, hvalue⟩
    refine ⟨hfinite, ?_⟩
    rw [abs_mul, habs'] at hvalue
    rw [abs_mul, habs]
    cases s with
    | false =>
      simp only [Bool.false_eq_true, if_false, one_mul, abs_one, hlog] at hvalue ⊢
      exact hvalue.of_cell hv hb hm hm'
    | true =>
      simp only [if_true, neg_one_mul, abs_neg, abs_one, one_mul, hlog] at hvalue ⊢
      refine hvalue.of_cell hv hb (k := -(k + 1)) ?_ ?_
      · push_cast
        constructor <;> linarith [hm.1, hm.2]
      · push_cast
        constructor <;> linarith [hm'.1, hm'.2]

/-- What stands for a number far below stays two places below the first digit of the other, and
below the last of them that counts. -/
theorem floor_below (hp : 0 < p) {floor : Int}
    (hfloor : floor = e - 1 + if p < digitCount c then 0 else (digitCount c : Int) - p - 1) :
    floor + 1 ≤ e ∧ floor + 2 ≤ leading c e ∧ floor + 1 ≤ leading c e - p := by
  have hpos := digitCount_pos c
  unfold leading
  split at hfloor <;> omega

/-- A number is a multiple of the unit at a place below its first digit, and more than one. -/
theorem exists_multiple (hc : c ≠ 0) {g : Int} (hg : g ≤ e) (hlead : g < leading c e) :
    ∃ a : Nat, 2 ≤ a ∧ (c : Rat) * 10 ^ e = a * 10 ^ g := by
  refine ⟨c * 10 ^ (e - g).toNat, ?_, by exact_mod_cast scale_down (c : Rat) hg⟩
  have hle := (tens_le (show g + 1 ≤ leading c e by omega)).trans (tens_leading_le hc e)
  rw [scale_down (c : Rat) hg, add_comm g 1, tens_add, zpow_one] at hle
  have hcast := le_of_mul_le_mul_right hle (tens_pos g)
  have hnat : 10 ≤ c * 10 ^ (e - g).toNat := by exact_mod_cast hcast
  omega

/-- What is at most `u` away from a multiple of `10 * u` lies, for each side, in one cell of half
the size. -/
theorem exists_cell {a : Nat} (ha : 2 ≤ a) (u : Rat) (same : Prop) [Decidable same] :
    ∃ (k : Int) (K : Nat), 0 ≤ k ∧ K ≠ 0 ∧ ∀ δ : Rat, 0 < δ → δ ≤ u →
      ((k : Rat) * (5 * u) < a * (10 * u) + (if same then 1 else -1) * δ ∧
        (a : Rat) * (10 * u) + (if same then 1 else -1) * δ < (k + 1) * (5 * u)) ∧
      ((K : Rat) * (10 * u) < a * (10 * u) + (if same then 1 else -1) * δ ∧
        (a : Rat) * (10 * u) + (if same then 1 else -1) * δ < (K + 1) * (10 * u)) := by
  by_cases hsame : same
  · refine ⟨2 * a, a, by omega, by omega, fun δ hδ hu => ?_⟩
    push_cast [if_pos hsame]
    refine ⟨⟨?_, ?_⟩, ?_, ?_⟩ <;> linarith
  · refine ⟨2 * a - 1, a - 1, by omega, by omega, fun δ hδ hu => ?_⟩
    push_cast [if_neg hsame, show 1 ≤ a by omega]
    refine ⟨⟨?_, ?_⟩, ?_, ?_⟩ <;> linarith

/-- The sum with one unit at the place `floor` in place of the second number. -/
theorem signed_scaled_add_one (s t : Bool) (c : Nat) {floor : Int} (h : floor ≤ e) :
    ((signed s (c * 10 ^ (e - floor).toNat) + signed t 1 : Int) : Rat) * 10 ^ floor =
      (if s then -1 else 1) * (c * 10 ^ e + (if s = t then 1 else -1) * 10 ^ floor) := by
  have hone : (((1 : Nat) : Rat) * 10 ^ floor) = 10 ^ floor := by rw [Nat.cast_one, one_mul]
  have hscale := scale_down (c : Rat) h
  have hadd := signed_add s t (c * 10 ^ (e - floor).toNat) 1 (10 ^ floor) (10 ^ floor)
  rw [hone] at hadd
  push_cast at hscale hadd ⊢
  rw [add_mul, hadd, hscale]

theorem abs_signed_mul (s : Bool) (m : Rat) : |(if s then (-1 : Rat) else 1) * m| = |m| := by
  cases s <;> simp

/-- Where the second number is far below the first, one unit at the place `floor` stands for it. -/
theorem addAligned_far (hp : 0 < p) (s t : Bool) {floor : Int} (hc : c ≠ 0) (hd : d ≠ 0)
    (hfloor : floor = e - 1 + if p < digitCount c then 0 else (digitCount c : Int) - p - 1)
    (hfar : leading d f < floor)
    (h : HasRoom p (signed s c * 10 ^ e + signed t d * 10 ^ f)) :
    Rounds p (signed s c * 10 ^ e + signed t d * 10 ^ f)
      (addAligned p s (c * 10 ^ (e - floor).toNat) t 1 floor) := by
  obtain ⟨hge, hfirst, hplace⟩ := floor_below hp hfloor
  obtain ⟨a, ha2, ha⟩ := exists_multiple hc hge (by omega)
  have hten : (10 : Rat) ^ (floor + 1) = 10 * 10 ^ floor := by rw [add_comm, tens_add, zpow_one]
  have hunit := tens_pos floor
  have hfirstDigit := tens_leading_le hc e
  have hsecond : (d : Rat) * 10 ^ f < 10 ^ floor :=
    lt_of_lt_of_le (lt_tens_leading d f) (tens_le (by omega))
  have hpositive : (0 : Rat) < d * 10 ^ f :=
    mul_pos (Nat.cast_pos.mpr (Nat.pos_of_ne_zero hd)) (tens_pos f)
  have haligned := @addAligned_rounds p (c * 10 ^ (e - floor).toNat) 1 floor hp s t
  rw [signed_scaled_add_one s t c (by omega), ha, hten] at haligned
  rw [ha, hten] at hfirstDigit
  rw [signed_add, ha, hten] at h ⊢
  -- both sums lie in the half of a cell at one side of the first number
  obtain ⟨k, K, hk, hK, hcell⟩ := exists_cell ha2 (10 ^ floor) (s = t)
  obtain ⟨hm, hM⟩ := hcell _ hpositive hsecond.le
  obtain ⟨hm', hM'⟩ := hcell _ hunit le_rfl
  have hlarge : (10 : Rat) ^ (leading c e - 1) ≤
      a * (10 * 10 ^ floor) + (if s = t then 1 else -1) * (d * 10 ^ f) := by
    have hsplit : (10 : Rat) ^ leading c e = 10 * 10 ^ (leading c e - 1) := by
      rw [show leading c e = 1 + (leading c e - 1) by omega, tens_add, zpow_one]
      norm_num
    have hstep : (10 : Rat) ^ floor ≤ 10 ^ (leading c e - 1) := tens_le (by omega)
    split <;> linarith
  generalize (a : Rat) * (10 * 10 ^ floor) + (if s = t then 1 else -1) * (d * 10 ^ f) = m at *
  generalize (a : Rat) * (10 * 10 ^ floor) + (if s = t then 1 else -1) * 10 ^ floor = m' at *
  have hv : (0 : Rat) < 5 * 10 ^ floor := by linarith
  have hmpos : 0 < m := lt_of_le_of_lt (mul_nonneg (by exact_mod_cast hk) hv.le) hm.1
  obtain ⟨hlow, hhigh⟩ := Bignumber.log_bounds hmpos
  rw [← hten] at hM hM'
  obtain ⟨hlow', hhigh'⟩ := tens_between hK hM hM' hlow hhigh
  have hlog := tens_lt_iff.mp (lt_of_le_of_lt hlarge hhigh)
  have hb : (10 : Rat) ^ lastPlace p (Int.log 10 m) / 2 =
      (10 ^ (lastPlace p (Int.log 10 m) - (floor + 1)).toNat : Int) * (5 * 10 ^ floor) := by
    have hgrid := tens_on_grid (show floor + 1 ≤ lastPlace p (Int.log 10 m) by
      unfold lastPlace
      omega)
    rw [hten] at hgrid
    rw [hgrid]
    push_cast
    ring
  obtain ⟨hroom, hrounds⟩ := Rounds.of_cell
    (x := addAligned p s (c * 10 ^ (e - floor).toNat) t 1 floor)
    hv hk hm hm' (log_eq hlow' hhigh') hb (h.of_abs_eq (abs_signed_mul s m)) s
  exact hrounds (haligned (hroom.of_abs_eq (abs_signed_mul s m').symm))

theorem addScaled_rounds (hp : 0 < p) (s t : Bool) (hfe : f ≤ e)
    (h : HasRoom p (signed s c * 10 ^ e + signed t d * 10 ^ f)) :
    Rounds p (signed s c * 10 ^ e + signed t d * 10 ^ f) (addScaled p s c e t d f) := by
  -- on a common grid the sum is one of integers
  have hgrid : ∀ {g : Int} {b : Nat}, g ≤ e → (signed t b : Rat) * 10 ^ g = signed t d * 10 ^ f →
      Rounds p (signed s c * 10 ^ e + signed t d * 10 ^ f)
        (addAligned p s (c * 10 ^ (e - g).toNat) t b g) := by
    intro g b hg hb
    have hsum : ((signed s (c * 10 ^ (e - g).toNat) + signed t b : Int) : Rat) * 10 ^ g =
        signed s c * 10 ^ e + signed t d * 10 ^ f := by
      rw [← hb, scale_down (signed s c : Rat) hg, signed_mul_natCast]
      push_cast
      ring
    have hrounds := @addAligned_rounds p (c * 10 ^ (e - g).toNat) b g hp s t (by rwa [hsum])
    rwa [hsum] at hrounds
  unfold addScaled
  split
  · next hc =>
    have hzero := hgrid hfe rfl
    rw [hc, Nat.zero_mul] at hzero
    rwa [hc]
  · next hc =>
    dsimp only [tenPow_eq]
    generalize hfloor :
      e - 1 + (if p < digitCount c then 0 else (digitCount c : Int) - p - 1) = floor
    by_cases hfar : leading d f < floor
    · rw [if_pos hfar]
      by_cases hd : d = 0
      · have hle : floor ≤ e := by
          split at hfloor <;> omega
        subst hd
        exact hgrid hle (by cases t <;> simp [signed])
      · rw [Nat.min_eq_right (Nat.one_le_iff_ne_zero.mpr hd)]
        exact addAligned_far hp s t hc hd hfloor.symm hfar h
    · rw [if_neg hfar]
      exact hgrid hfe rfl

/-- A sum is rounded half to even. -/
theorem add_rounds (hp : 0 < p) {x y : Decimal} (hx : x.isFinite = true) (hy : y.isFinite = true)
    (h : HasRoom p (x.toRat + y.toRat)) : Rounds p (x.toRat + y.toRat) (add p x y) := by
  cases x with
  | infinite | nan => cases hx
  | finite s c e =>
    cases y with
    | infinite | nan => cases hy
    | finite t d f =>
      simp only [add]
      split
      · next hfe => exact addScaled_rounds hp s t hfe h
      · next hfe =>
        rw [add_comm] at h ⊢
        exact addScaled_rounds hp t s (le_of_not_ge hfe) h

/-- The sum of the smallest and the largest power of ten is rounded to the latter. -/
theorem Rounds.eq_of_far (hp : 1 ≤ p) {x : Decimal}
    (hx : Rounds p (10 ^ (-(p : Int)) - 10 ^ (p : Int)) x) : x.toRat = (-10 ^ p : Int) := by
  have hpos := tens_pos (-(p : Int))
  have hunit : (10 : Rat) ^ (-(p : Int)) ≤ 1 / 10 := by
    rw [show (1 / 10 : Rat) = 10 ^ (-1 : Int) by norm_num]
    exact tens_le (by omega)
  have hstep : (10 : Rat) ^ (p : Int) = 10 * 10 ^ ((p : Int) - 1) := by
    rw [show (p : Int) = ((p : Int) - 1) + 1 by omega, tens_add, zpow_one]
    ring_nf
  have hone : (1 : Rat) ≤ 10 ^ ((p : Int) - 1) := zpow_zero (10 : Rat) ▸ tens_le (by omega)
  have habs : |(10 : Rat) ^ (-(p : Int)) - 10 ^ (p : Int)| = 10 ^ (p : Int) - 10 ^ (-(p : Int)) := by
    rw [abs_sub_comm, abs_of_nonneg (by linarith)]
  have hlog : Int.log 10 |(10 : Rat) ^ (-(p : Int)) - 10 ^ (p : Int)| = (p : Int) - 1 := by
    rw [habs]
    refine log_eq (by linarith) ?_
    rw [sub_add_cancel]
    linarith
  have hplace : lastPlace p ((p : Int) - 1) = 0 := by
    unfold lastPlace tiniest
    omega
  obtain ⟨n, hn, hnear, -⟩ := hx.value
  rw [hlog, hplace, zpow_zero, mul_one] at hn
  rw [hn, hlog, hplace, zpow_zero, zpow_natCast, abs_le] at hnear
  -- `n + 10 ^ p` is an integer between two fractions of one
  have hlow : (-1 : Rat) < (n + 10 ^ p : Int) := by
    push_cast
    linarith [hnear.1]
  have hhigh : ((n + 10 ^ p : Int) : Rat) < 1 := by
    push_cast
    linarith [hnear.2]
  have hzero : n + 10 ^ p = 0 := by
    have hlow' : -1 < n + 10 ^ p := by exact_mod_cast hlow
    have hhigh' : n + 10 ^ p < 1 := by exact_mod_cast hhigh
    omega
  rw [hn, eq_neg_of_add_eq_zero_left hzero]

end Abacus.Decimal
