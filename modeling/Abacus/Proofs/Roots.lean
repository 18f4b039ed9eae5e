import Abacus.Proofs.Newton
import Mathlib.Algebra.Order.Ring.Abs

/-! Integer roots and rational powers. A root that is found bit by bit or by Newton's iteration is the
floor of the real one, so a number without a root is told from one with a root; and since numerator
and denominator have no common factor, a rational is a power exactly if both of them are. -/

namespace Abacus

namespace Number

variable {n value : Nat}

/-- The root lies in the interval that the bits decided so far leave. -/
theorem rootBits_bounds {k r : Nat} (hlow : r ^ n ≤ value) (hhigh : value < (r + 2 ^ k) ^ n) :
    rootBits n value k r ^ n ≤ value ∧ value < (rootBits n value k r + 1) ^ n := by
  induction k generalizing r with
  | zero => exact ⟨hlow, hhigh⟩
  | succ k ih =>
    show rootBits n value k (if (r + 2 ^ k) ^ n ≤ value then r + 2 ^ k else r) ^ n ≤ value ∧
      value < (rootBits n value k (if (r + 2 ^ k) ^ n ≤ value then r + 2 ^ k else r) + 1) ^ n
    split
    · next hs =>
      refine ih hs ?_
      rwa [Nat.add_assoc, ← Nat.two_mul, ← Nat.pow_succ']
    · next hs => exact ih hlow (Nat.lt_of_not_le hs)

/-- The integer root is the floor of the root. -/
theorem integerRoot_bounds (hn : 0 < n) (value : Nat) :
    integerRoot value n ^ n ≤ value ∧ value < (integerRoot value n + 1) ^ n := by
  refine rootBits_bounds (by simp [hn.ne']) ?_
  rw [Nat.zero_add]
  exact lt_start_pow hn value

/-- There is one floor of a root. -/
theorem eq_of_bounds (hn : 0 < n) {r s : Nat} (hlow : s ^ n ≤ r ^ n) (hhigh : r ^ n < (s + 1) ^ n) :
    s = r := by
  have hle := (Nat.pow_le_pow_iff_left hn.ne').mp hlow
  have hlt := (Nat.pow_lt_pow_iff_left hn.ne').mp hhigh
  omega

theorem integerRoot_pow (hn : 0 < n) (r : Nat) : integerRoot (r ^ n) n = r := by
  obtain ⟨hlow, hhigh⟩ := integerRoot_bounds hn (r ^ n)
  exact eq_of_bounds hn hlow hhigh

theorem exactRootNat?_eq_some (hn : 0 < n) {r : Nat} :
    exactRootNat? value n = some r ↔ r ^ n = value := by
  obtain ⟨s, hs, hlow, hhigh⟩ := newtonRoot?_bounds hn value
  have hdef : exactRootNat? value n = if s ^ n = value then some s else none := by
    rw [exactRootNat?, hs]
    rfl
  rw [hdef]
  constructor
  · intro h
    split at h
    · next heq =>
      cases h
      exact heq
    · cases h
  · rintro rfl
    obtain rfl := eq_of_bounds hn hlow hhigh
    exact if_pos rfl

theorem exactRoot?_eq (v : Int) (n : Nat) :
    exactRoot? v n =
      if v < 0 then
        if n % 2 = 0 then none
        else Option.map (fun r : Nat => -(r : Int)) (exactRootNat? v.natAbs n)
      else Option.map (fun r : Nat => (r : Int)) (exactRootNat? v.natAbs n) := by
  unfold exactRoot?
  cases exactRootNat? v.natAbs n <;> rfl

/-- An exact root is found if there is one; of two it is the one that is not negative. -/
theorem exactRoot?_eq_some (hn : 0 < n) {v r : Int} :
    exactRoot? v n = some r ↔ r ^ n = v ∧ (Even n → 0 ≤ r) := by
  rw [exactRoot?_eq]
  split
  · next hv =>
    split
    · next heven =>
      have hsquare : 0 ≤ r ^ n := (Nat.even_iff.mpr heven).pow_nonneg r
      simp only [reduceCtorEq, false_iff]
      rintro ⟨rfl, _⟩
      exact absurd hsquare (not_le.mpr hv)
    · next hodd =>
      have hodd : Odd n := Nat.not_even_iff_odd.mp (fun he => hodd (Nat.even_iff.mp he))
      simp only [Option.map_eq_some_iff, exactRootNat?_eq_some hn]
      constructor
      · rintro ⟨k, hk, rfl⟩
        refine ⟨?_, fun he => absurd he (Nat.not_even_iff_odd.mpr hodd)⟩
        have hcast : (k : Int) ^ n = v.natAbs := by exact_mod_cast hk
        rw [hodd.neg_pow, hcast]
        omega
      · rintro ⟨rfl, _⟩
        have hr : r < 0 := hodd.pow_neg_iff.mp hv
        exact ⟨r.natAbs, (Int.natAbs_pow r n).symm, by omega⟩
  · next hv =>
    simp only [Option.map_eq_some_iff, exactRootNat?_eq_some hn]
    constructor
    · rintro ⟨k, hk, rfl⟩
      have hcast : (k : Int) ^ n = v.natAbs := by exact_mod_cast hk
      exact ⟨by omega, fun _ => Int.natCast_nonneg k⟩
    · rintro ⟨rfl, hsign⟩
      have hr : 0 ≤ r := by
        rcases Nat.even_or_odd n with he | ho
        · exact hsign he
        · exact ho.pow_nonneg_iff.mp (not_lt.mp hv)
      exact ⟨r.natAbs, (Int.natAbs_pow r n).symm, by omega⟩

theorem exactRoot?_eq_none (hn : 0 < n) {v : Int} :
    exactRoot? v n = none ↔ ¬ ∃ r : Int, r ^ n = v := by
  rw [Option.eq_none_iff_forall_ne_some, not_exists]
  constructor
  · intro h r hr
    rcases Nat.even_or_odd n with he | ho
    · exact h |r| ((exactRoot?_eq_some hn).mpr ⟨by rw [he.pow_abs, hr], fun _ => abs_nonneg r⟩)
    · exact h r ((exactRoot?_eq_some hn).mpr ⟨hr, fun he => absurd he (Nat.not_even_iff_odd.mpr ho)⟩)
  · intro h r hr
    exact h r ((exactRoot?_eq_some hn).mp hr).1

/-- Integer roots are floors. Newton's iteration ends at the floor of the root of every natural
number and divides by zero nowhere; an integer has an exact root exactly if one is found, and of two
it is the one that is not negative. -/
theorem roots_are_floors (hn : 0 < n) :
    (∀ value : Nat, ∃ r, newtonRoot? value n = some r ∧ r ^ n ≤ value ∧ value < (r + 1) ^ n) ∧
      (∀ v r : Int, exactRoot? v n = some r ↔ r ^ n = v ∧ (0 ≤ v → 0 ≤ r)) ∧
      ∀ v : Int, exactRoot? v n = none ↔ ¬ ∃ r : Int, r ^ n = v := by
  refine ⟨newtonRoot?_bounds hn, fun v r => ?_, fun v => exactRoot?_eq_none hn⟩
  rw [exactRoot?_eq_some hn]
  refine and_congr_right (fun hr => ?_)
  rcases Nat.even_or_odd n with he | ho
  · have hv : 0 ≤ v := hr ▸ he.pow_nonneg r
    exact ⟨fun h _ => h he, fun h _ => h hv⟩
  · have hsign : 0 ≤ v → 0 ≤ r := fun hv => ho.pow_nonneg_iff.mp (hr ▸ hv)
    exact ⟨fun _ => hsign, fun _ he => absurd he (Nat.not_even_iff_odd.mpr ho)⟩

/-- The floor of a root just below a cube, the root of a negative cube, and a number that is no
cube. -/
theorem cubes_told_apart : 0 < 3 ∧
    (∃ r, newtonRoot? 26 3 = some r ∧ r ^ 3 ≤ 26 ∧ 26 < (r + 1) ^ 3) ∧
    exactRoot? (-27) 3 = some (-3) ∧ exactRoot? 28 3 = none ∧ ¬ ∃ r : Int, r ^ 3 = 28 := by
  obtain ⟨hfloor, hexact, hnone⟩ := roots_are_floors (n := 3) (by decide)
  have hrefused : exactRoot? 28 3 = none := by decide +kernel
  exact ⟨by decide, hfloor 26, (hexact (-27) (-3)).mpr ⟨by decide, by decide⟩, hrefused,
    (hnone 28).mp hrefused⟩

end Number

namespace Fraction

open Number

/-- A reduced fraction is a power of another one exactly if numerator and denominator are. -/
theorem pow_eq_pow_iff {x r : Rat} {p q : Nat} :
    r ^ q = x ^ p ↔ r.num ^ q = x.num ^ p ∧ (r.den : Int) ^ q = (x.den : Int) ^ p := by
  rw [← Rat.num_pow, ← Rat.num_pow]
  constructor
  · intro h
    have hden : r.den ^ q = x.den ^ p := by rw [← Rat.den_pow, ← Rat.den_pow, h]
    exact ⟨congrArg Rat.num h, by exact_mod_cast hden⟩
  · rintro ⟨hnum, hden⟩
    refine Rat.ext hnum ?_
    rw [Rat.den_pow, Rat.den_pow]
    exact_mod_cast hden

theorem powerRoot_eq_ok {x r : Rat} {p q : Nat} (hq : 0 < q) :
    powerRoot x p q = .ok r ↔ r ^ q = x ^ p ∧ (Even q → 0 ≤ r) := by
  constructor
  · intro h
    unfold powerRoot at h
    split at h
    · next n d hn hd =>
      cases h
      obtain ⟨hnum, hsign⟩ := (exactRoot?_eq_some hq).mp hn
      obtain ⟨hden, hpos⟩ := (exactRoot?_eq_some hq).mp hd
      have hnum' : (n : Rat) ^ q = (x.num : Rat) ^ p := by exact_mod_cast hnum
      have hden' : (d : Rat) ^ q = (x.den : Rat) ^ p := by exact_mod_cast hden
      refine ⟨by rw [div_pow, hnum', hden', ← div_pow, Rat.num_div_den], fun he => ?_⟩
      exact div_nonneg (Int.cast_nonneg (hsign he)) (Int.cast_nonneg (hpos he))
    · cases h
  · rintro ⟨hpow, hsign⟩
    obtain ⟨hnum, hden⟩ := pow_eq_pow_iff.mp hpow
    have hn : exactRoot? (Int.pow x.num p) q = some r.num :=
      (exactRoot?_eq_some hq).mpr ⟨hnum, fun he => Rat.num_nonneg.mpr (hsign he)⟩
    have hd : exactRoot? (Nat.pow x.den p : Int) q = some (r.den : Int) :=
      (exactRoot?_eq_some hq).mpr ⟨by exact_mod_cast hden, fun _ => Int.natCast_nonneg r.den⟩
    unfold powerRoot
    rw [hn, hd]
    exact congrArg Except.ok (Rat.num_div_den r)

/-- With an even exponent one of two roots is not negative. -/
theorem exists_root {y : Rat} {q : Nat} (h : ∃ r : Rat, r ^ q = y) :
    ∃ r : Rat, r ^ q = y ∧ (Even q → 0 ≤ r) := by
  obtain ⟨r, hr⟩ := h
  rcases Nat.even_or_odd q with he | ho
  · exact ⟨|r|, by rw [he.pow_abs, hr], fun _ => abs_nonneg r⟩
  · exact ⟨r, hr, fun he => absurd he (Nat.not_even_iff_odd.mpr ho)⟩

theorem powerRoot_eq_error {x : Rat} {p q : Nat} (hq : 0 < q) {f : Failure} :
    powerRoot x p q = .error f ↔ f = .notRational ∧ ∀ r : Rat, r ^ q ≠ x ^ p := by
  constructor
  · intro h
    have hf : f = .notRational := by
      unfold powerRoot at h
      split at h
      · cases h
      · exact (Except.error.inj h).symm
    refine ⟨hf, fun r hr => ?_⟩
    obtain ⟨s, hs⟩ := exists_root ⟨r, hr⟩
    rw [(powerRoot_eq_ok hq).mpr hs] at h
    cases h
  · rintro ⟨rfl, hnone⟩
    cases h : powerRoot x p q with
    | ok r => exact absurd ((powerRoot_eq_ok hq).mp h).1 (hnone r)
    | error g =>
      unfold powerRoot at h
      split at h
      · cases h
      · exact h.symm

theorem powerInt_eq (x : Rat) (n : Int) : powerInt x n = x ^ n := by
  obtain ⟨k, rfl | rfl⟩ := n.eq_nat_or_neg
  · rw [powerInt_natCast, zpow_natCast]
  · have hinverse : powerInt x (-k) = (powerInt x k)⁻¹ := by
      rcases Nat.eq_zero_or_pos k with rfl | hk
      · have hone : powerInt x 0 = 1 := by simpa using powerInt_natCast x 0
        simp [hone]
      · have hneg : ¬ (0 : Int) ≤ -k := by omega
        have hpos : (0 : Int) ≤ k := by omega
        simp only [powerInt, Int.natAbs_neg, if_neg hneg, if_pos hpos]
    rw [hinverse, powerInt_natCast, zpow_neg, zpow_natCast]

theorem power_zero {y : Rat} (hy : y < 0) : power 0 y = .error .divisionByZero := by
  by_cases hd : y.den = 1
  · rw [power, if_pos hd, if_pos ⟨rfl, hy⟩]
  · have hnum : y.num.natAbs ≠ 0 := Int.natAbs_ne_zero.mpr (Rat.num_ne_zero.mpr hy.ne)
    have hroot : powerRoot 0 y.num.natAbs y.den = .ok 0 := by
      refine (powerRoot_eq_ok y.den_pos).mpr ⟨?_, fun _ => le_refl 0⟩
      rw [zero_pow y.den_nz, zero_pow hnum]
    rw [power, if_neg hd, if_pos hy, hroot]
    rfl

/-- A negative exponent inverts the root, which is not zero. -/
theorem power_of_neg {x y : Rat} (hx : x ≠ 0) (hy : y < 0) (hd : y.den ≠ 1) :
    power x y = (powerRoot x y.num.natAbs y.den).map (·⁻¹) := by
  unfold power
  rw [if_neg hd, if_pos hy]
  cases h : powerRoot x y.num.natAbs y.den with
  | error f => rfl
  | ok r =>
    have hpow := ((powerRoot_eq_ok y.den_pos).mp h).1
    have hr : r ≠ 0 := by
      rintro rfl
      rw [zero_pow y.den_nz] at hpow
      exact pow_ne_zero _ hx hpow.symm
    show divide 1 r = .ok r⁻¹
    rw [divide, if_neg hr, one_div]

theorem zpow_num_of_nonneg {y : Rat} (hy : ¬ y < 0) (x : Rat) : x ^ y.num = x ^ y.num.natAbs := by
  have hnum : ((y.num.natAbs : Nat) : Int) = y.num :=
    Int.natAbs_of_nonneg (Rat.num_nonneg.mpr (not_lt.mp hy))
  rw [← zpow_natCast, hnum]

theorem zpow_num_of_neg {y : Rat} (hy : y < 0) (x : Rat) :
    x ^ y.num = (x ^ y.num.natAbs)⁻¹ := by
  have hnum : ((y.num.natAbs : Nat) : Int) = -y.num := Int.ofNat_natAbs_of_nonpos
    (Rat.num_neg.mpr hy).le
  rw [← zpow_natCast, hnum, zpow_neg, inv_inv]

section Power

variable {x y : Rat} (h : ¬ (x = 0 ∧ y < 0))

include h

theorem power_eq_ok {r : Rat} :
    power x y = .ok r ↔ r ^ y.den = x ^ y.num ∧ (Even y.den → 0 ≤ r) := by
  by_cases hd : y.den = 1
  · rw [power, if_pos hd, if_neg h, hd, powerInt_eq, pow_one, Except.ok.injEq]
    exact ⟨fun he => ⟨he.symm, fun hone => absurd hone Nat.not_even_one⟩, fun he => he.1.symm⟩
  by_cases hy : y < 0
  · have hx : x ≠ 0 := fun hx => h ⟨hx, hy⟩
    have hmap : (powerRoot x y.num.natAbs y.den).map (·⁻¹) = .ok r ↔
        powerRoot x y.num.natAbs y.den = .ok r⁻¹ := by
      cases powerRoot x y.num.natAbs y.den with
      | error f => simp [Except.map]
      | ok s => simp [Except.map, inv_eq_iff_eq_inv]
    rw [power_of_neg hx hy hd, hmap, powerRoot_eq_ok y.den_pos, zpow_num_of_neg hy, inv_pow,
      inv_nonneg, inv_eq_iff_eq_inv]
  · rw [power, if_neg hd, if_neg hy, powerRoot_eq_ok y.den_pos, zpow_num_of_nonneg hy]

theorem power_eq_error {f : Failure} :
    power x y = .error f ↔ f = .notRational ∧ ∀ r : Rat, r ^ y.den ≠ x ^ y.num := by
  by_cases hd : y.den = 1
  · rw [power, if_pos hd, if_neg h, hd]
    simp
  by_cases hy : y < 0
  · have hx : x ≠ 0 := fun hx => h ⟨hx, hy⟩
    have hmap : (powerRoot x y.num.natAbs y.den).map (·⁻¹) = .error f ↔
        powerRoot x y.num.natAbs y.den = .error f := by
      cases powerRoot x y.num.natAbs y.den <;> simp [Except.map]
    rw [power_of_neg hx hy hd, hmap, powerRoot_eq_error y.den_pos, zpow_num_of_neg hy]
    refine and_congr_right (fun _ => inv_surjective.forall.trans (forall_congr' fun r => ?_))
    rw [inv_pow, ne_eq, ne_eq, inv_eq_iff_eq_inv]
  · rw [power, if_neg hd, if_neg hy, powerRoot_eq_error y.den_pos, zpow_num_of_nonneg hy]

end Power

/-- Powers are complete. Apart from zero with a negative exponent, which is a division by zero, the
power `x ^ (p / q)` is the rational whose `q`-th power is `x ^ p`, the one that is not negative if
there are two; and it is refused as not rational exactly if there is none. -/
theorem power_complete (x y : Rat) :
    (power x y = .error .divisionByZero ↔ x = 0 ∧ y < 0) ∧
      (¬ (x = 0 ∧ y < 0) →
        (∀ r : Rat, power x y = .ok r ↔ r ^ y.den = x ^ y.num ∧ (Even y.den → 0 ≤ r)) ∧
        (power x y = .error .notRational ↔ ∀ r : Rat, r ^ y.den ≠ x ^ y.num) ∧
        ((∃ r : Rat, r ^ y.den = x ^ y.num) → ∃ r, power x y = .ok r)) := by
  refine ⟨⟨fun he => ?_, ?_⟩, fun h => ⟨fun r => power_eq_ok h, ?_, fun hroot => ?_⟩⟩
  · by_contra h
    exact absurd ((power_eq_error h).mp he).1 (by decide)
  · rintro ⟨rfl, hy⟩
    exact power_zero hy
  · rw [power_eq_error h]
    exact and_iff_right rfl
  · obtain ⟨r, hr⟩ := exists_root hroot
    exact ⟨r, (power_eq_ok h).mpr hr⟩

/-- The root of a negative number and a root that inverts. -/
example : power (-8) (5 / 3) = .ok (-32) ∧ power (4 / 9) (-3 / 2) = .ok (27 / 8) ∧
    power (-4) (1 / 2) = .error .notRational := by
  decide +kernel

end Fraction

end Abacus
