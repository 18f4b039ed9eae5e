import Abacus.Proofs.Safety.Orderly
import Abacus.System.Fraction

/-! Fractions serve every script that is no longer than the integers that can be read: each numeral
of the source is read as a number. -/

namespace Abacus

theorem Arithmetic.system_factorial {α : Type} (a : Arithmetic α) (constants : List (String × α))
    (own : List (Builtin α)) : ∃ b, (a.system constants own).builtin? "fac" = some b :=
  ⟨a.fac, rfl⟩

namespace Text

theorem plainDigit_of_isDigit {c : Char} (h : c.isDigit) : plainDigit c = c := by
  have hc := toNat_of_isDigit h
  have hn : 48 + (c.toNat - 48) = c.toNat := by omega
  simp only [plainDigit, digitValue?, h, if_true, hn, Char.ofNat_toNat]

theorem not_isBlank_of_isDigit {c : Char} (h : c.isDigit) : isBlank c = false := by
  have hc := toNat_of_isDigit h
  simp [isBlank]
  omega

theorem trim_eq_self {cs : List Char} (h : ∀ c ∈ cs, isBlank c = false) : trim cs = cs := by
  have hdrop : ∀ ds : List Char, (∀ c ∈ ds, isBlank c = false) → ds.dropWhile isBlank = ds := by
    intro ds hds
    cases ds with
    | nil => rfl
    | cons c ds => exact List.dropWhile_cons_of_neg (by simp [hds c List.mem_cons_self])
  simp only [trim, trimRight, trimLeft, hdrop cs h]
  rw [hdrop cs.reverse (fun c hc => h c (List.mem_reverse.mp hc)), List.reverse_reverse]

/-- The characters of a numeral are read as they are. -/
theorem plain_numeral {text : String} (h : Numeral text) :
    (trim text.toList).map plainDigit = text.toList := by
  have hdigits : ∀ cs, Digits cs → ∀ c ∈ cs, plainDigit c = c ∧ isBlank c = false :=
    fun cs hcs c hc =>
      ⟨plainDigit_of_isDigit (hcs.2 c hc), not_isBlank_of_isDigit (hcs.2 c hc)⟩
  have hchars : ∀ c ∈ text.toList, plainDigit c = c ∧ isBlank c = false := by
    cases h with
    | whole hcs => simpa using hdigits _ hcs
    | decimal hcs hds =>
      intro c hc
      simp only [String.toList_append, String.toList_ofList, List.mem_append] at hc
      rcases hc with (hc | hc) | hc
      · exact hdigits _ hcs c hc
      · obtain rfl : c = '.' := by simpa using hc
        decide
      · exact hdigits _ hds c hc
  rw [trim_eq_self (fun c hc => (hchars c hc).2)]
  exact (List.map_congr_left (fun c hc => (hchars c hc).1)).trans (List.map_id _)

end Text

namespace Fraction

variable {cs ds rest : List Char}

theorem digitRun_append (h : ∀ c ∈ cs, c.isDigit) (hr : digitRun rest = ([], rest)) :
    digitRun (cs ++ rest) = (cs, rest) := by
  induction cs with
  | nil => exact hr
  | cons c cs ih =>
    obtain ⟨hc, hcs⟩ := List.forall_mem_cons.mp h
    simp only [List.cons_append, digitRun, hc, if_true, ih hcs]

theorem digits_append (h : Digits cs) (hr : digitRun rest = ([], rest)) :
    digits (cs ++ rest) = (cs, rest) := by
  have hrun := digitRun_append h.2 hr
  obtain ⟨c, cs, rfl⟩ := List.exists_cons_of_ne_nil h.1
  have hc := h.2 c List.mem_cons_self
  simpa only [digits, List.cons_append, List.head?_cons, Option.any_some, hc, if_true] using hrun

theorem digits_of_digits (h : Digits cs) : digits cs = (cs, []) := by
  have hall : digits (cs ++ []) = (cs, []) := digits_append h rfl
  rwa [List.append_nil] at hall

theorem splitSign_digits (h : Digits cs) (rest : List Char) :
    Decimal.splitSign (cs ++ rest) = (false, cs ++ rest) := by
  obtain ⟨c, cs, rfl⟩ := List.exists_cons_of_ne_nil h.1
  have hc := h.2 c List.mem_cons_self
  unfold Decimal.splitSign
  split
  · next heq =>
    cases heq
    exact absurd hc (by decide)
  · next heq =>
    cases heq
    exact absurd hc (by decide)
  · rfl

theorem readDigits_ok {limit : Option Nat} (h : ∀ k ∈ limit, cs.length ≤ k) :
    readDigits limit cs = .ok (Text.natOfDigits cs) := by
  cases limit with
  | none => rfl
  | some k => exact if_neg (Nat.not_lt.mpr (h k rfl))

/-- A numeral that is no longer than the limit is read. -/
theorem parse_numeral {limit : Option Nat} {text : String} (h : Numeral text)
    (hl : ∀ k ∈ limit, text.length ≤ k) : ∃ v, parse limit text = .ok v := by
  suffices hread : Decimal.splitSign text.toList = (false, text.toList) ∧
      ∃ v, readBody limit text text.toList = .ok v by
    obtain ⟨hsign, v, hv⟩ := hread
    refine ⟨v, ?_⟩
    simp only [parse, Text.plain_numeral h, hsign, hv, Bool.false_eq_true, if_false]
  have hempty : readDigits limit [] = .ok 0 := readDigits_ok (fun _ _ => Nat.zero_le _)
  cases h with
  | @whole cs hcs =>
    have hsign := splitSign_digits hcs []
    rw [List.append_nil] at hsign
    rw [String.toList_ofList]
    have hwhole : readDigits limit cs = .ok (Text.natOfDigits cs) :=
      readDigits_ok (fun k hk => by simpa using hl k hk)
    refine ⟨hsign, scale (Text.natOfDigits cs) 0, ?_⟩
    simp [readBody, digits_of_digits hcs, exponent, hcs.1, hwhole, hempty, Number.tenPow,
      Decimal.signed]
    rfl
  | @decimal cs ds hcs hds =>
    have hwhole : digits (cs ++ '.' :: ds) = (cs, '.' :: ds) :=
      digits_append hcs (by simp [digitRun])
    have hchars : (String.ofList cs ++ "." ++ String.ofList ds).toList = cs ++ '.' :: ds := by
      simp
    have hlength : ∀ k ∈ limit, cs.length + 1 + ds.length ≤ k := by
      intro k hk
      have htext := hl k hk
      rw [← String.length_toList, hchars, List.length_append, List.length_cons] at htext
      omega
    have hn : readDigits limit cs = .ok (Text.natOfDigits cs) :=
      readDigits_ok (fun k hk => by have := hlength k hk; omega)
    have hm : readDigits limit ds = .ok (Text.natOfDigits ds) :=
      readDigits_ok (fun k hk => by have := hlength k hk; omega)
    rw [hchars]
    refine ⟨splitSign_digits hcs _, scale (Text.natOfDigits cs * Number.tenPow ds.length +
      Text.natOfDigits ds) (0 - ds.length), ?_⟩
    simp [readBody, hwhole, digits_of_digits hds, exponent, hcs.1, hn, hm, hempty, Decimal.signed]
    rfl

theorem system_serves (digits : Int) {limit : Option Nat} {n : Nat} (h : ∀ k ∈ limit, n + 1 ≤ k) :
    (system digits limit).Serves n where
  numeral _ hnumeral hlength :=
    parse_numeral hnumeral (fun k hk => hlength.trans (h k hk))
  factorial := Arithmetic.system_factorial _ _ _

end Fraction

end Abacus
