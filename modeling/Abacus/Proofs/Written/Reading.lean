import Abacus.Proofs.Exact.Powers
import Abacus.Proofs.Safety.Systems
import Abacus.Proofs.Written.Digits

/-! The text of a decimal number read again. Only coefficients without zeros at the end have to be
looked at: each of their digits is written once, and the point and the exponent say where it
stands. -/

namespace Abacus

namespace Decimal

open Number Text

variable {c : Nat} {e : Int}

section Reading

/-- A character that is read as it is. -/
def Plain (c : Char) : Prop :=
  isBlank c = false ∧ c ≠ '_' ∧ plainDigit c = c

theorem Plain.of_isDigit {d : Char} (h : d.isDigit) : Plain d := by
  refine ⟨not_isBlank_of_isDigit h, ?_, plainDigit_of_isDigit h⟩
  rintro rfl
  cases h

theorem Plain.of_mem {d : Char} (h : d ∈ ['.', 'e', '+', '-']) : Plain d := by
  simp only [List.mem_cons, List.not_mem_nil, or_false] at h
  rcases h with rfl | rfl | rfl | rfl
  all_goals exact ⟨by decide, by decide, by decide⟩

theorem plain_eq_self {cs : List Char} (h : ∀ d ∈ cs, Plain d) : plain cs = cs := by
  have hfilter : cs.filter (· ≠ '_') = cs :=
    List.filter_eq_self.mpr (fun d hd => by simpa using (h d hd).2.1)
  rw [plain, trim_eq_self (fun d hd => (h d hd).1), hfilter]
  exact (List.map_congr_left (fun d hd => (h d hd).2.2)).trans (List.map_id _)

theorem toLower_of_isDigit {d : Char} (hd : d.isDigit) : d.toLower = d := by
  have hcode : d.val.toNat ≤ 57 := (toNat_of_isDigit hd).2
  unfold Char.toLower
  rw [dif_neg]
  rintro ⟨hge, -⟩
  have hupper : 65 ≤ d.val.toNat := UInt32.le_iff_toNat_le.mp hge
  omega

theorem lower_ne {d : Char} (hd : d.isDigit) (cs : List Char) {l : Char} (hl : l.isDigit = false)
    (word : List Char) : (d :: cs).map Char.toLower ≠ l :: word := by
  rw [List.map_cons, toLower_of_isDigit hd]
  intro heq
  rw [(List.cons.inj heq).1, hl] at hd
  cases hd

/-- What starts with a digit is no name. -/
theorem readName?_of_isDigit (s : Bool) {d : Char} (hd : d.isDigit) (cs : List Char) :
    readName? s (d :: cs) = none := by
  have hword : ∀ cs : List Char, ∀ word ∈ ["inf", "infinity", "nan", "snan"],
      (d :: cs).map Char.toLower ≠ word.toList := by
    intro cs
    simp only [List.forall_mem_cons, List.not_mem_nil, false_implies, implies_true, and_true]
    exact ⟨lower_ne hd cs rfl _, lower_ne hd cs rfl _, lower_ne hd cs rfl _, lower_ne hd cs rfl _⟩
  have hafter : ∀ word ∈ ["inf", "infinity", "nan", "snan"], word.length ≠ 0 →
      afterWord? word (d :: cs) = none := by
    intro word hmem hlen
    obtain ⟨n, hn⟩ := Nat.exists_eq_succ_of_ne_zero hlen
    exact if_neg (by rw [hn]; exact hword _ word hmem)
  have hname : ¬ ((d :: cs).map Char.toLower = "inf".toList ∨
      (d :: cs).map Char.toLower = "infinity".toList) :=
    not_or.mpr ⟨hword cs _ (by simp), hword cs _ (by simp)⟩
  unfold readName?
  rw [hafter "nan" (by simp) (by decide), hafter "snan" (by simp) (by decide)]
  exact if_neg hname

def withMinus (s : Bool) (body : List Char) : List Char :=
  if s then '-' :: body else body

/-- A text that starts with a digit, or with a sign before it, is read as a numeral. -/
theorem ofText_withMinus (s : Bool) {d : Char} {rest : List Char} (hd : d.isDigit)
    (h : ∀ l ∈ d :: rest, Plain l) :
    ofText (String.ofList (withMinus s (d :: rest))) = readNumeral s (d :: rest) := by
  have hplain : ∀ l ∈ withMinus s (d :: rest), Plain l := by
    unfold withMinus
    split
    · exact List.forall_mem_cons.mpr ⟨.of_mem (by simp), h⟩
    · exact h
  have hsign : splitSign (withMinus s (d :: rest)) = (s, d :: rest) := by
    cases s with
    | true => rfl
    | false =>
      have hdigits : Digits [d] := ⟨by simp, by simpa using hd⟩
      exact Fraction.splitSign_digits hdigits rest
  rw [ofText, String.toList_ofList, plain_eq_self hplain, hsign]
  dsimp only
  rw [readName?_of_isDigit s hd]

theorem exponent?_eq {rest : List Char} {negative : Bool} {ds : List Char}
    (h : splitSign rest = (negative, ds)) (hds : Digits ds) :
    exponent? ('e' :: rest) = some (signed negative (natOfDigits ds)) := by
  rw [exponent?, if_pos (Or.inl rfl), h]
  exact if_pos ⟨hds.1, List.all_eq_true.mpr hds.2⟩

/-- The exponent of a number that is not written in full. -/
def mark (top : Int) : List Char :=
  (if 0 < top then ['e', '+'] else ['e']) ++ (toString top).toList

theorem toList_toString (n : Int) :
    (toString n).toList = if 0 ≤ n then digitsOf n.toNat else '-' :: digitsOf (-n).toNat := by
  show n.repr.toList = _
  rw [Int.repr_eq_if]
  split
  · rw [Nat.repr_eq_ofList_toDigits, String.toList_ofList]
    rfl
  · rw [String.toList_append, Nat.repr_eq_ofList_toDigits, String.toList_ofList]
    simp [digitsOf]

theorem exponent?_mark (top : Int) : exponent? (mark top) = some top := by
  rcases lt_trichotomy top 0 with hneg | rfl | hpos
  · have hmark : mark top = 'e' :: '-' :: digitsOf (-top).toNat := by
      rw [mark, if_neg (by omega), toList_toString, if_neg (by omega)]
      rfl
    have hsplit : splitSign ('-' :: digitsOf (-top).toNat) = (true, digitsOf (-top).toNat) := rfl
    rw [hmark, exponent?_eq hsplit (digits_digitsOf _), natOfDigits_digitsOf, signed, if_pos rfl]
    congr 1
    omega
  · decide
  · have hmark : mark top = 'e' :: '+' :: digitsOf top.toNat := by
      rw [mark, if_pos hpos, toList_toString, if_pos hpos.le]
      rfl
    have hsplit : splitSign ('+' :: digitsOf top.toNat) = (false, digitsOf top.toNat) := rfl
    rw [hmark, exponent?_eq hsplit (digits_digitsOf _), natOfDigits_digitsOf, signed,
      if_neg (by simp)]
    congr 1
    omega

theorem plain_mark (top : Int) : ∀ d ∈ mark top, Plain d := by
  intro d hd
  rw [mark, toList_toString, List.mem_append] at hd
  rcases hd with hd | hd
  · have hsigns : d = 'e' ∨ d = '+' := by
      split at hd
      · simpa using hd
      · exact .inl (List.mem_singleton.mp hd)
    rcases hsigns with rfl | rfl
    · exact .of_mem (by simp)
    · exact .of_mem (by simp)
  · split at hd
    · exact .of_isDigit ((digits_digitsOf _).2 d hd)
    · rcases List.mem_cons.mp hd with rfl | hd
      · exact .of_mem (by simp)
      · exact .of_isDigit ((digits_digitsOf _).2 d hd)

/-- What may come behind the digits of a number. -/
structure IsExponent (rest : List Char) (x : Int) : Prop where
  starts : rest = [] ∨ ∃ cs, rest = 'e' :: cs
  value : exponent? rest = some x
  plain : ∀ d ∈ rest, Plain d

theorem IsExponent.none : IsExponent [] 0 :=
  ⟨.inl rfl, rfl, by simp⟩

theorem isExponent_mark (top : Int) : IsExponent (mark top) top := by
  refine ⟨.inr ?_, exponent?_mark top, plain_mark top⟩
  unfold mark
  split
  · exact ⟨_, rfl⟩
  · exact ⟨_, rfl⟩

variable {whole fraction rest : List Char} {x : Int}

theorem readNumeral_withPoint (s : Bool) (hw : Digits whole) (hf : ∀ d ∈ fraction, d.isDigit)
    (hr : IsExponent rest x) :
    readNumeral s (withPoint whole fraction ++ rest) =
      checked s (natOfDigits (whole ++ fraction)) (x - fraction.length) := by
  have hstop : rest.takeWhile Char.isDigit = [] ∧ rest.dropWhile Char.isDigit = rest := by
    rcases hr.starts with rfl | ⟨cs, rfl⟩
    · exact ⟨rfl, rfl⟩
    · exact ⟨rfl, rfl⟩
  have hne : whole ++ fraction ≠ [] := by simp [hw.1]
  unfold readNumeral withPoint
  by_cases hnone : fraction = []
  · subst hnone
    rw [if_pos rfl, List.takeWhile_append_of_pos hw.2, List.dropWhile_append_of_pos hw.2, hstop.1,
      hstop.2]
    rcases hr.starts with rfl | ⟨cs, rfl⟩
    · simp [hw.1, hr.value]
    · simp [hw.1, hr.value]
  · rw [if_neg hnone, List.append_assoc, List.takeWhile_append_of_pos hw.2,
      List.dropWhile_append_of_pos hw.2]
    simp [hw.1, hr.value, List.takeWhile_append_of_pos hf, List.dropWhile_append_of_pos hf, hstop]

theorem plain_withPoint (hw : Digits whole) (hf : ∀ d ∈ fraction, d.isDigit)
    (hr : IsExponent rest x) : ∀ d ∈ withPoint whole fraction ++ rest, Plain d := by
  have hwhole : ∀ d ∈ whole, Plain d := fun d hd => .of_isDigit (hw.2 d hd)
  have hfraction : ∀ d ∈ fraction, Plain d := fun d hd => .of_isDigit (hf d hd)
  have hpoint : Plain '.' := .of_mem (by simp)
  intro d hd
  rcases List.mem_append.mp hd with hd | hd
  · unfold withPoint at hd
    split at hd
    · exact hwhole d hd
    · rcases List.mem_append.mp hd with hd | hd
      · exact hwhole d hd
      · rcases List.mem_cons.mp hd with rfl | hd
        · exact hpoint
        · exact hfraction d hd
  · exact hr.plain d hd

/-- A numeral is read as its digits with an exponent, whatever its sign. -/
theorem ofText_withPoint (s : Bool) (hw : Digits whole) (hf : ∀ d ∈ fraction, d.isDigit)
    (hr : IsExponent rest x) :
    ofText (String.ofList (withMinus s (withPoint whole fraction ++ rest))) =
      checked s (natOfDigits (whole ++ fraction)) (x - fraction.length) := by
  have hplain := plain_withPoint hw hf hr
  rw [← readNumeral_withPoint s hw hf hr]
  obtain ⟨d, ds, rfl⟩ := List.exists_cons_of_ne_nil hw.1
  obtain ⟨tail, htail⟩ : ∃ tail, withPoint (d :: ds) fraction ++ rest = d :: tail := by
    unfold withPoint
    split
    · exact ⟨_, rfl⟩
    · exact ⟨_, rfl⟩
  rw [htail] at hplain ⊢
  exact ofText_withMinus s (hw.2 d List.mem_cons_self) hplain

end Reading

section Reduced

/-- A number with the last digit not zero keeps all its digits. -/
theorem dropTrailingZeros_drop (hc : ¬ 10 ∣ c) (front : List Char) (k : Nat) :
    dropTrailingZeros ((front ++ digitsOf c).drop k) = (front ++ digitsOf c).drop k := by
  obtain ⟨ds, l, hds, hl⟩ := exists_last_digit hc
  rw [hds, ← List.append_assoc]
  by_cases hk : k ≤ (front ++ ds).length
  · rw [List.drop_append_of_le_length hk, dropTrailingZeros_of_last _ hl]
  · rw [List.drop_eq_nil_of_le (by rw [List.length_append, List.length_singleton]; omega)]
    rfl

theorem ofText_scientific (s : Bool) (hc : ¬ 10 ∣ c) (e : Int) :
    ofText (String.ofList (withMinus s (scientific c e))) = checked s c e := by
  have hdigits := digits_digitsOf c
  have hlen : 0 < (digitsOf c).length := Nat.length_toDigits_pos
  have hwhole : Digits ((digitsOf c).take 1) := by
    refine ⟨?_, fun d hd => hdigits.2 d (List.mem_of_mem_take hd)⟩
    rw [ne_eq, List.take_eq_nil_iff]
    simp [hdigits.1]
  have hbody : scientific c e =
      withPoint ((digitsOf c).take 1) ((digitsOf c).drop 1) ++ mark (leading c e) := by
    have hkeep := dropTrailingZeros_drop hc [] 1
    rw [List.nil_append] at hkeep
    unfold scientific withPoint mark
    dsimp only
    rw [hkeep]
    split
    · rw [List.append_nil, List.append_assoc]
    · simp only [List.append_assoc]
  have hlast : leading c e - ((digitsOf c).drop 1).length = e := by
    rw [List.length_drop, leading, ← length_digitsOf]
    omega
  rw [hbody, ofText_withPoint s hwhole (fun d hd => hdigits.2 d (List.mem_of_mem_drop hd))
    (isExponent_mark _), List.take_append_drop, natOfDigits_digitsOf, hlast]

theorem digits_padded (c places : Nat) : ∀ d ∈ padded c places, d.isDigit := by
  intro d hd
  rcases List.mem_append.mp hd with hd | hd
  · rw [List.eq_of_mem_replicate hd]
    rfl
  · exact (digits_digitsOf c).2 d hd

theorem ofText_positional_neg (s : Bool) (hc : ¬ 10 ∣ c) {places : Nat} (hp : places ≠ 0) :
    ofText (String.ofList (withMinus s (positional c (-places)))) = checked s c (-places) := by
  have hlen : places + 1 ≤ (padded c places).length := by
    rw [padded, List.length_append, List.length_replicate]
    omega
  have hwhole : Digits ((padded c places).take ((padded c places).length - places)) := by
    refine ⟨?_, fun d hd => digits_padded c places d (List.mem_of_mem_take hd)⟩
    refine List.ne_nil_of_length_pos ?_
    rw [List.length_take]
    omega
  have hfraction : ((padded c places).drop ((padded c places).length - places)).length = places := by
    rw [List.length_drop]
    omega
  have hvalue : natOfDigits (padded c places) = c := by
    rw [padded, natOfDigits_zeros_append, natOfDigits_digitsOf]
  have hdigits : ∀ d ∈ (padded c places).drop ((padded c places).length - places), d.isDigit :=
    fun d hd => digits_padded c places d (List.mem_of_mem_drop hd)
  have hread := ofText_withPoint s hwhole hdigits .none
  rw [List.append_nil, List.take_append_drop, hvalue, hfraction, zero_sub] at hread
  rw [positional_of_neg c hp, ← hread]
  unfold padded
  rw [dropTrailingZeros_drop hc]

theorem ofText_positional_nonneg (s : Bool) (c : Nat) (he : 0 ≤ e) :
    ofText (String.ofList (withMinus s (positional c e))) = checked s (10 ^ e.toNat * c) 0 := by
  have hdigits : Digits (digitsOf c ++ List.replicate e.toNat '0') := by
    refine ⟨by simp [(digits_digitsOf c).1], fun d hd => ?_⟩
    rcases List.mem_append.mp hd with hd | hd
    · exact (digits_digitsOf c).2 d hd
    · rw [List.eq_of_mem_replicate hd]
      rfl
  have hnone : ∀ d ∈ ([] : List Char), d.isDigit := by simp
  have hread := ofText_withPoint s hdigits hnone .none
  rw [List.append_nil, List.append_nil, natOfDigits_append_zeros, natOfDigits_digitsOf] at hread
  rw [positional_of_nonneg c he]
  exact hread

/-- Without zeros at the end the digits are read as they are; if the number is an integer, those
behind them are read as well. -/
theorem ofText_reduced (s : Bool) (hc : ¬ 10 ∣ c) (e : Int) :
    ∃ k : Nat, (k = 0 ∨ (k : Int) = e) ∧
      ofText (Decimal.finite s c e).text = checked s (10 ^ k * c) (e - k) := by
  have hc0 := ne_zero_of_not_ten_dvd hc
  by_cases hfull : -7 ≤ leading c e ∧ leading c e < 21
  · have htext : (Decimal.finite s c e).text = String.ofList (withMinus s (positional c e)) := by
      simp only [text, chars, if_neg hc0, if_pos hfull, withMinus]
    rw [htext]
    by_cases he : 0 ≤ e
    · refine ⟨e.toNat, .inr (by omega), ?_⟩
      rw [ofText_positional_nonneg s c he, Int.toNat_of_nonneg he, sub_self]
    · obtain ⟨places, rfl⟩ : ∃ places : Nat, e = -places := ⟨(-e).toNat, by omega⟩
      refine ⟨0, .inl rfl, ?_⟩
      rw [ofText_positional_neg s hc (by omega)]
      simp
  · have htext : (Decimal.finite s c e).text = String.ofList (withMinus s (scientific c e)) := by
      simp only [text, chars, if_neg hc0, if_neg hfull, withMinus]
    refine ⟨0, .inl rfl, ?_⟩
    rw [htext, ofText_scientific s hc]
    simp

/-- Every coefficient but zero has digits without zeros at the end. -/
theorem exists_reduced_text (s : Bool) (hc : c ≠ 0) (e : Int) :
    ∃ (d k : Nat), ¬ 10 ∣ d ∧ c = 10 ^ k * d ∧
      (Decimal.finite s c e).text = (Decimal.finite s d (e + k)).text := by
  obtain ⟨k, d, hd, rfl⟩ := Nat.exists_eq_pow_mul_and_not_dvd hc 10 (by decide)
  refine ⟨d, k, hd, rfl, ?_⟩
  rw [text, text, chars_tenPow_mul s (ne_zero_of_not_ten_dvd hd)]

end Reduced

/-- The finite numbers there are: the exponents of the first and of the last digit have limits. -/
def InRange : Decimal → Prop
  | .finite _ c e => tiniest limit ≤ e ∧ (if c = 0 then e else leading c e) ≤ limit
  | _ => False

theorem exists_checked {s : Bool} {cs : List Char} {v : Decimal} (h : readNumeral s cs = .ok v) :
    ∃ c e, checked s c e = .ok v := by
  unfold readNumeral at h
  dsimp only at h
  split at h
  all_goals
    split at h
    · cases h
    · split at h
      · cases h
      · exact ⟨_, _, h⟩

theorem readName?_not_finite {s : Bool} {cs : List Char} {v : Decimal}
    (h : readName? s cs = some v) : v.isFinite = false := by
  unfold readName? at h
  dsimp only at h
  split at h
  · cases h
    rfl
  · split at h
    · split at h
      · cases h
        rfl
      · cases h
    · cases h

/-- Whatever finite number is read is one of them. -/
theorem ofText_inRange {source : String} {v : Decimal} (h : ofText source = .ok v)
    (hv : v.isFinite = true) : v.InRange := by
  unfold ofText at h
  dsimp only at h
  split at h
  · next hname =>
    cases h
    rw [readName?_not_finite hname] at hv
    cases hv
  · obtain ⟨c, e, hchecked⟩ := exists_checked h
    unfold checked at hchecked
    by_cases hrange : tiniest limit ≤ e ∧ (if c = 0 then e else leading c e) ≤ limit
    · cases (if_pos hrange).symm.trans hchecked
      exact hrange
    · cases (if_neg hrange).symm.trans hchecked

theorem checked_tenPow_mul (s : Bool) (hc : c ≠ 0) {k : Nat} (hk : k = 0 ∨ (k : Int) = e)
    (h : InRange (.finite s c e)) :
    checked s (10 ^ k * c) (e - k) = .ok (.finite s (10 ^ k * c) (e - k)) := by
  obtain ⟨hlow, hhigh⟩ := h
  rw [if_neg hc] at hhigh
  have hne : 10 ^ k * c ≠ 0 := Nat.mul_ne_zero (by positivity) hc
  have htop : leading (10 ^ k * c) (e - k) = leading c e := by
    rw [leading_tenPow_mul hc, sub_add_cancel]
  have hrange : tiniest limit ≤ e - k := by
    unfold tiniest limit at hlow ⊢
    omega
  unfold checked
  rw [if_neg hne, htop]
  exact if_pos ⟨hrange, hhigh⟩

/-- What is written is read as the same number. -/
theorem ofText_text {v : Decimal} (hv : v.InRange) :
    ∃ w, ofText v.text = .ok w ∧ w.isNegative = v.isNegative ∧ Represents w v.toRat := by
  cases v with
  | infinite | nan => cases hv
  | finite s c e =>
    by_cases hc : c = 0
    · subst hc
      have hsame : (Decimal.finite s 0 0).toRat = (Decimal.finite s 0 e).toRat := by
        rw [toRat_zero_coefficient, toRat_zero_coefficient]
      have htext : (Decimal.finite s 0 e).text = String.ofList (withMinus s ['0']) := rfl
      refine ⟨.finite s 0 0, ?_, rfl, rfl, hsame⟩
      rw [htext]
      cases s <;> decide
    · obtain ⟨d, k, hd, rfl, htext⟩ := exists_reduced_text s hc e
      have hd0 := ne_zero_of_not_ten_dvd hd
      have hrange : InRange (.finite s d (e + k)) := by
        obtain ⟨hlow, hhigh⟩ := hv
        rw [if_neg hc, leading_tenPow_mul hd0] at hhigh
        exact ⟨by omega, by rwa [if_neg hd0]⟩
      obtain ⟨m, hm, hread⟩ := ofText_reduced s hd (e + k)
      rw [checked_tenPow_mul s hd0 hm hrange, ← htext] at hread
      refine ⟨_, hread, rfl, rfl, ?_⟩
      rw [toRat_tenPow_mul, toRat_tenPow_mul, sub_add_cancel]

/-- Two coefficients without zeros at the end are equal if their values are. -/
theorem eq_of_reduced {d : Nat} {f : Int} (hc : ¬ 10 ∣ c) (hd : ¬ 10 ∣ d)
    (h : (c : Rat) * 10 ^ e = d * 10 ^ f) : c = d ∧ e = f := by
  have hfiner : ∀ {a b : Nat} {g l : Int}, ¬ 10 ∣ a → (a : Rat) * 10 ^ g = b * 10 ^ l → l ≤ g := by
    intro a b g l ha hab
    by_contra hlt
    rw [scale_down (b : Rat) (show g ≤ l by omega)] at hab
    have hcast : a = b * 10 ^ (l - g).toNat := by
      exact_mod_cast mul_right_cancel₀ (tens_pos g).ne' hab
    exact ha (hcast ▸ Dvd.dvd.mul_left (dvd_pow_self 10 (by omega)) b)
  obtain rfl : e = f := le_antisymm (hfiner hd h.symm) (hfiner hc h)
  have hcast : (c : Rat) = d := mul_right_cancel₀ (tens_pos e).ne' h
  exact ⟨by exact_mod_cast hcast, rfl⟩

/-- The text depends on the sign and on the value alone. -/
theorem text_eq_of_toRat_eq {v w : Decimal} (hv : v.isFinite = true) (hw : w.isFinite = true)
    (hsign : v.isNegative = w.isNegative) (h : v.toRat = w.toRat) : v.text = w.text := by
  cases v with
  | infinite | nan => cases hv
  | finite s c e =>
    cases w with
    | infinite | nan => cases hw
    | finite t d f =>
      obtain rfl : s = t := hsign
      have habs : (c : Rat) * 10 ^ e = d * 10 ^ f := by
        rw [← abs_toRat_finite s, ← abs_toRat_finite s, h]
      have hzero : c = 0 ↔ d = 0 := by
        have hiff : (c : Rat) * 10 ^ e = 0 ↔ (d : Rat) * 10 ^ f = 0 := by rw [habs]
        simpa [(tens_pos e).ne', (tens_pos f).ne'] using hiff
      by_cases hc : c = 0
      · rw [hc, hzero.mp hc]
        rfl
      · obtain ⟨a, k, ha, rfl, htext⟩ := exists_reduced_text s hc e
        obtain ⟨b, l, hb, rfl, htext'⟩ := exists_reduced_text s (mt hzero.mpr hc) f
        have hvalue : (a : Rat) * 10 ^ (e + k) = b * 10 ^ (f + l) := by
          rw [add_comm e, add_comm f, tens_add, tens_add, zpow_natCast, zpow_natCast]
          push_cast at habs
          linarith
        obtain ⟨rfl, hexp⟩ := eq_of_reduced ha hb hvalue
        rw [htext, htext', hexp]

/-- The text of a decimal number is faithful and canonical. -/
theorem text_faithful (v w : Decimal) (hv : v.InRange) (hw : w.InRange) :
    (∃ x, ofText v.text = .ok x ∧ x.isNegative = v.isNegative ∧ Represents x v.toRat) ∧
      (v.text = w.text ↔ v.isNegative = w.isNegative ∧ v.toRat = w.toRat) := by
  have hfinite : ∀ {u : Decimal}, u.InRange → u.isFinite = true := by
    intro u hu
    cases u with
    | finite => rfl
    | infinite | nan => cases hu
  refine ⟨ofText_text hv, ?_, fun h => text_eq_of_toRat_eq (hfinite hv) (hfinite hw) h.1 h.2⟩
  intro heq
  obtain ⟨x, hx, hsign, hvalue⟩ := ofText_text hv
  obtain ⟨y, hy, hsign', hvalue'⟩ := ofText_text hw
  rw [heq, hy] at hx
  cases hx
  exact ⟨hsign.symm.trans hsign', hvalue.value.symm.trans hvalue'.value⟩

/-- The smallest power of ten that is written in full, with zeros at the end of its coefficient. -/
theorem least_positional_faithful :
    (Decimal.finite true 100 (-9)).InRange ∧ (Decimal.finite true 1 (-7)).InRange ∧
      (Decimal.finite true 100 (-9)).text = "-0.0000001" ∧
      (Decimal.finite true 1 (-7)).text = "-0.0000001" ∧
      ∃ x, ofText "-0.0000001" = .ok x ∧ x.isNegative = true ∧ Represents x (-1 / 10000000) := by
  have hv : (Decimal.finite true 100 (-9)).InRange := by
    unfold InRange
    decide +kernel
  have hw : (Decimal.finite true 1 (-7)).InRange := by
    unfold InRange
    decide +kernel
  have htext : (Decimal.finite true 100 (-9)).text = "-0.0000001" := by decide +kernel
  have hvalue : (Decimal.finite true 100 (-9)).toRat = -1 / 10000000 := by decide +kernel
  have hsame : (Decimal.finite true 1 (-7)).toRat = -1 / 10000000 := by decide +kernel
  obtain ⟨⟨x, hx, hsign, hreads⟩, hiff⟩ := text_faithful _ _ hv hw
  have heq := hiff.mpr ⟨rfl, hvalue.trans hsame.symm⟩
  rw [htext] at hx heq
  rw [hvalue] at hreads
  exact ⟨hv, hw, htext, heq.symm, x, hx, hsign, hreads⟩

end Decimal

end Abacus
