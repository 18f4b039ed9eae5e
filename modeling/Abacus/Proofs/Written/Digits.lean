import Abacus.Decimal.Text
import Abacus.Proofs.Exact.Value
import Abacus.Proofs.Literals

/-! The digits of a number as text, and the zeros at the end of a coefficient: they can be moved to
the exponent without a change in what is written. -/

namespace Abacus

namespace Text

variable {n : Nat}

theorem digits_digitsOf (n : Nat) : Digits (digitsOf n) :=
  ⟨Nat.toDigits_ne_nil, fun _ hc => Nat.isDigit_of_mem_toDigits (by decide) (by decide) hc⟩

theorem length_digitsOf (n : Nat) : (digitsOf n).length = Number.digitCount n := by
  have hdigits : ∀ {k}, 0 < k → ((digitsOf n).length ≤ k ↔ n < 10 ^ k) :=
    fun hk => Nat.length_toDigits_le_iff (by decide) hk
  refine le_antisymm ?_ ?_
  · exact (hdigits (Number.digitCount_pos n)).mpr (Number.lt_tenPow_digitCount n)
  · have hpos : 0 < (digitsOf n).length := Nat.length_toDigits_pos
    exact (Number.digitCount_le_iff hpos).mpr ((hdigits hpos).mp le_rfl)

theorem natOfDigits_digitsOf (n : Nat) : natOfDigits (digitsOf n) = n :=
  Nat.ofDigitChars_toDigits (by decide) (by decide)

theorem natOfDigits_zeros_append (k : Nat) (cs : List Char) :
    natOfDigits (List.replicate k '0' ++ cs) = natOfDigits cs := by
  have hzeros : Nat.ofDigitChars 10 (List.replicate k '0') 0 = 0 := by
    rw [Nat.ofDigitChars_replicate_zero, Nat.mul_zero]
  show Nat.ofDigitChars 10 (List.replicate k '0' ++ cs) 0 = Nat.ofDigitChars 10 cs 0
  rw [Nat.ofDigitChars_append, hzeros]

theorem natOfDigits_append_zeros (cs : List Char) (k : Nat) :
    natOfDigits (cs ++ List.replicate k '0') = 10 ^ k * natOfDigits cs := by
  show Nat.ofDigitChars 10 (cs ++ List.replicate k '0') 0 = 10 ^ k * Nat.ofDigitChars 10 cs 0
  rw [Nat.ofDigitChars_append, Nat.ofDigitChars_replicate_zero]

theorem digitsOf_ten_mul (hn : n ≠ 0) : digitsOf (10 * n) = digitsOf n ++ ['0'] :=
  (Nat.toDigits_append_toDigits (d := 0) (by decide) (Nat.pos_of_ne_zero hn) (by decide)).symm

/-- The last digit of a number that ten does not divide. -/
theorem exists_last_digit (h : ¬ 10 ∣ n) : ∃ front c, digitsOf n = front ++ [c] ∧ c ≠ '0' := by
  have hlast : ∀ r < 10, r ≠ 0 → Nat.digitChar r ≠ '0' := by decide
  have hmod : n % 10 ≠ 0 := fun hz => h (Nat.dvd_of_mod_eq_zero hz)
  have hlt := Nat.mod_lt n (show 10 > 0 by decide)
  have hsplit := Nat.toDigits_eq_if (b := 10) (n := n) (by decide)
  by_cases hn : n < 10
  · rw [if_pos hn] at hsplit
    rw [Nat.mod_eq_of_lt hn] at hmod
    exact ⟨[], _, hsplit, hlast n hn hmod⟩
  · rw [if_neg hn] at hsplit
    exact ⟨_, _, hsplit, hlast _ hlt hmod⟩

end Text

namespace Decimal

open Number Text

variable {c : Nat} {e : Int}

section Zeros

theorem dropTrailingZeros_append_zero (cs : List Char) :
    dropTrailingZeros (cs ++ ['0']) = dropTrailingZeros cs := by
  simp [dropTrailingZeros]

theorem dropTrailingZeros_of_last (cs : List Char) {l : Char} (hl : l ≠ '0') :
    dropTrailingZeros (cs ++ [l]) = cs ++ [l] := by
  simp [dropTrailingZeros, hl]

theorem leading_ten_mul (hc : c ≠ 0) (e : Int) : leading (10 * c) e = leading c (e + 1) := by
  have hcount : digitCount (10 * c) = digitCount c + 1 := by
    rw [← length_digitsOf, ← length_digitsOf, digitsOf_ten_mul hc, List.length_append]
    rfl
  unfold leading
  omega

/-- The digits of `c` with at least one digit before the last `places` digits. -/
def padded (c places : Nat) : List Char :=
  List.replicate (places + 1 - (digitsOf c).length) '0' ++ digitsOf c

def withPoint (whole fraction : List Char) : List Char :=
  if fraction = [] then whole else whole ++ '.' :: fraction

theorem positional_of_nonneg (c : Nat) (he : 0 ≤ e) :
    positional c e = digitsOf c ++ List.replicate e.toNat '0' :=
  if_pos he

theorem positional_of_neg (c : Nat) {places : Nat} (hp : places ≠ 0) :
    positional c (-places) =
      withPoint ((padded c places).take ((padded c places).length - places))
        (dropTrailingZeros ((padded c places).drop ((padded c places).length - places))) := by
  have hto : (- -(places : Int)).toNat = places := by omega
  rw [positional, if_neg (by omega)]
  dsimp only
  rw [hto]
  rfl

theorem padded_ten_mul (hc : c ≠ 0) (places : Nat) :
    padded (10 * c) (places + 1) = padded c places ++ ['0'] := by
  have hpad : places + 1 + 1 - (digitsOf c ++ ['0']).length = places + 1 - (digitsOf c).length := by
    rw [List.length_append, List.length_singleton]
    omega
  rw [padded, digitsOf_ten_mul hc, hpad, padded, List.append_assoc]

theorem padded_zero (c : Nat) : padded c 0 = digitsOf c := by
  have hlen : 0 < (digitsOf c).length := Nat.length_toDigits_pos
  have hnone : 0 + 1 - (digitsOf c).length = 0 := by omega
  rw [padded, hnone, List.replicate_zero, List.nil_append]

theorem positional_ten_mul (hc : c ≠ 0) (e : Int) :
    positional (10 * c) e = positional c (e + 1) := by
  by_cases he : 0 ≤ e
  · have hsucc : (e + 1).toNat = e.toNat + 1 := by omega
    rw [positional_of_nonneg _ he, positional_of_nonneg _ (by omega), digitsOf_ten_mul hc, hsucc,
      List.replicate_succ, List.append_assoc]
    rfl
  · obtain ⟨places, rfl⟩ : ∃ places : Nat, e = -((places + 1 : Nat) : Int) :=
      ⟨(-e - 1).toNat, by omega⟩
    have hcut : (padded c places ++ ['0']).length - (places + 1) =
        (padded c places).length - places := by
      rw [List.length_append, List.length_singleton]
      omega
    rw [positional_of_neg _ (Nat.succ_ne_zero places), padded_ten_mul hc, hcut,
      List.take_append_of_le_length (Nat.sub_le _ _), List.drop_append_of_le_length (Nat.sub_le _ _),
      dropTrailingZeros_append_zero, show -((places + 1 : Nat) : Int) + 1 = -places by omega]
    by_cases hp : places = 0
    · -- the zero was the only digit behind the point
      subst hp
      rw [positional_of_nonneg _ (by omega), padded_zero]
      simp [withPoint, dropTrailingZeros]
    · rw [positional_of_neg c hp]

theorem scientific_ten_mul (hc : c ≠ 0) (e : Int) :
    scientific (10 * c) e = scientific c (e + 1) := by
  obtain ⟨d, ds, hds⟩ := List.exists_cons_of_ne_nil (digits_digitsOf c).1
  unfold scientific
  rw [leading_ten_mul hc, digitsOf_ten_mul hc, hds]
  simp only [List.cons_append, List.drop_one, List.tail_cons, List.take_succ_cons, List.take_zero,
    dropTrailingZeros_append_zero]

/-- A zero at the end of a coefficient leaves the text as it is. -/
theorem chars_ten_mul (s : Bool) (hc : c ≠ 0) (e : Int) :
    chars (.finite s (10 * c) e) = chars (.finite s c (e + 1)) := by
  have hten : 10 * c ≠ 0 := by omega
  simp only [chars, if_neg hc, if_neg hten, leading_ten_mul hc, positional_ten_mul hc,
    scientific_ten_mul hc]

/-- What a zero at the end of a coefficient does not change, many of them do not change either. -/
theorem eq_of_ten_mul {α : Type} {f : Nat → Int → α}
    (h : ∀ {c : Nat} (e : Int), c ≠ 0 → f (10 * c) e = f c (e + 1)) (hc : c ≠ 0) (k : Nat)
    (e : Int) : f (10 ^ k * c) e = f c (e + k) := by
  induction k generalizing e with
  | zero => simp
  | succ k ih =>
    have hne : 10 ^ k * c ≠ 0 := Nat.mul_ne_zero (by positivity) hc
    rw [Nat.pow_succ', Nat.mul_assoc, h e hne, ih]
    congr 1
    push_cast
    omega

theorem chars_tenPow_mul (s : Bool) (hc : c ≠ 0) (k : Nat) (e : Int) :
    chars (.finite s (10 ^ k * c) e) = chars (.finite s c (e + k)) :=
  eq_of_ten_mul (f := fun c e => chars (.finite s c e)) (fun e hc => chars_ten_mul s hc e) hc k e

theorem leading_tenPow_mul (hc : c ≠ 0) (k : Nat) (e : Int) :
    leading (10 ^ k * c) e = leading c (e + k) :=
  eq_of_ten_mul (f := leading) (fun e hc => leading_ten_mul hc e) hc k e

theorem toRat_tenPow_mul (s : Bool) (c k : Nat) (e : Int) :
    (Decimal.finite s (10 ^ k * c) e).toRat = (Decimal.finite s c (e + k)).toRat := by
  rw [toRat, toRat, Nat.mul_comm, signed_mul_natCast, add_comm e, tens_add, zpow_natCast]
  push_cast
  ring

end Zeros

end Decimal

end Abacus
