import Mathlib.Computability.Language
import Abacus.Expression.Postfix
import Abacus.Fault

/-! The grammar of expressions, `[+|-]? V !* (op? V !*)*`, as a language over tokens, with what can
stand behind each token of a line. A line that is not in the language is refused at the first token
that nothing can continue, or at an operator at its end. -/

namespace Abacus

open Computability

namespace Token

def IsFactorial (t : Token) : Prop :=
  t.kind = .operator ∧ t.value = "!"

def IsBinary (t : Token) : Prop :=
  t.kind = .operator ∧ (Precedence.of? t.value).isSome = true

def IsSign (t : Token) : Prop :=
  t.kind = .operator ∧ (t.value = "+" ∨ t.value = "-")

instance : DecidablePred IsFactorial :=
  fun t => inferInstanceAs (Decidable (t.kind = .operator ∧ t.value = "!"))

instance : DecidablePred IsBinary :=
  fun t => inferInstanceAs (Decidable (t.kind = .operator ∧ (Precedence.of? t.value).isSome = true))

instance : DecidablePred IsSign :=
  fun t => inferInstanceAs (Decidable (t.kind = .operator ∧ (t.value = "+" ∨ t.value = "-")))

theorem IsBinary.value_ne {t : Token} (h : t.IsBinary) : t.value ≠ "!" := by
  intro hv
  have hp := h.2
  rw [hv] at hp
  exact absurd hp (by decide)

theorem not_isValue_of_operator {t : Token} (h : t.kind = .operator) : ¬ t.isValue := by
  simp [isValue, h]

theorem IsSign.binary {t : Token} (h : t.IsSign) : t.IsBinary := by
  refine ⟨h.1, ?_⟩
  rcases h.2 with hv | hv <;> rw [hv] <;> rfl

end Token

namespace Grammar

/-- The lines of one token that has the property `P`. -/
def single (P : Token → Prop) : Language Token :=
  {T | ∃ t, P t ∧ T = [t]}

/-- A value with the factorials behind it. -/
def operand : Language Token :=
  single (·.isValue) * (single Token.IsFactorial)∗

/-- What may stand behind an operand: more of them, with or without an operator in front. -/
def more : Language Token :=
  ((1 + single Token.IsBinary) * operand)∗

/-- A line without a leading sign. -/
def unsigned : Language Token :=
  operand * more

def line : Language Token :=
  (1 + single Token.IsSign) * unsigned

/-- Something can follow that makes a line of the language. -/
def Viable (L : Language Token) (T : List Token) : Prop :=
  ∃ continuation, T ++ continuation ∈ L

def unexpected (t : Token) : Fault :=
  ⟨t.index, if t.kind = .operator then "Unexpected operator." else "Unexpected symbol.", t.length⟩

def unfinished (op : Token) : Fault :=
  ⟨op.index, "Expected an expression after the operator.", op.length⟩

/-- How a line that is not in the language is refused: at the first token that nothing can continue,
or at the binary operator at its end. -/
inductive Refused (L : Language Token) : List Token → Fault → Prop where
  | unexpected {before after : List Token} {t : Token} (viable : Viable L before)
      (stuck : ¬ Viable L (before ++ [t])) :
      Refused L (before ++ t :: after) (unexpected t)
  | unfinished {before : List Token} {op : Token} (viable : Viable L (before ++ [op]))
      (binary : op.IsBinary) : Refused L (before ++ [op]) (unfinished op)

variable {L L' : Language Token} {P : Token → Prop} {T : List Token} {t : Token} {f : Fault}

section Languages

theorem cons_mem_single_mul : t :: T ∈ single P * L ↔ P t ∧ T ∈ L := by
  rw [Language.mem_mul]
  constructor
  · rintro ⟨_, ⟨u, hu, rfl⟩, b, hb, heq⟩
    obtain ⟨rfl, rfl⟩ := List.cons.inj heq
    exact ⟨hu, hb⟩
  · rintro ⟨ht, hT⟩
    exact ⟨[t], ⟨t, ht, rfl⟩, T, hT, rfl⟩

theorem nil_notMem_single_mul : [] ∉ single P * L := by
  rintro ⟨_, ⟨u, _, rfl⟩, b, _, heq⟩
  cases heq

/-- What may stand behind a value. -/
def behind : Language Token :=
  (single Token.IsFactorial)∗ * more

theorem unsigned_eq : unsigned = single (·.isValue) * behind := by
  rw [unsigned, operand, behind, mul_assoc]

theorem behind_eq :
    behind = 1 + single (·.isValue) * behind + single Token.IsBinary * unsigned +
      single Token.IsFactorial * behind :=
  calc behind
    _ = (1 + single Token.IsFactorial * (single Token.IsFactorial)∗) * more := by
      rw [Language.one_add_self_mul_kstar_eq_kstar, behind]
    _ = more + single Token.IsFactorial * behind := by
      rw [add_mul, one_mul, mul_assoc, ← behind]
    _ = 1 + (1 + single Token.IsBinary) * operand * more + single Token.IsFactorial * behind := by
      conv_lhs => rw [more, ← Language.one_add_self_mul_kstar_eq_kstar, ← more]
    _ = 1 + single (·.isValue) * behind + single Token.IsBinary * unsigned +
        single Token.IsFactorial * behind := by
      rw [mul_assoc, ← unsigned, add_mul, one_mul, ← add_assoc, ← unsigned_eq]

/-- What is left to read, by whether a value has to come next. -/
def expected : Bool → Language Token
  | true => unsigned
  | false => behind

theorem nil_mem_expected {e : Bool} : [] ∈ expected e ↔ e = false := by
  cases e with
  | true =>
    refine iff_of_false ?_ nofun
    rw [expected, unsigned_eq]
    exact nil_notMem_single_mul
  | false =>
    refine iff_of_true ?_ rfl
    rw [expected, behind_eq]
    exact .inl (.inl (.inl rfl))

theorem cons_mem_unsigned : t :: T ∈ unsigned ↔ t.isValue ∧ T ∈ behind := by
  rw [unsigned_eq]
  exact cons_mem_single_mul

theorem cons_mem_behind :
    t :: T ∈ behind ↔ t.isValue ∧ T ∈ behind ∨ t.IsBinary ∧ T ∈ unsigned ∨
      t.IsFactorial ∧ T ∈ behind := by
  conv_lhs => rw [behind_eq]
  simp only [Language.mem_add, cons_mem_single_mul, Language.mem_one, List.cons_ne_nil, false_or,
    or_assoc]

theorem cons_mem_line :
    t :: T ∈ line ↔ t :: T ∈ unsigned ∨ t.IsSign ∧ T ∈ unsigned := by
  rw [line, add_mul, one_mul, Language.mem_add, cons_mem_single_mul]

theorem isValue_cons_mem {e : Bool} (ht : t.isValue) :
    t :: T ∈ expected e ↔ T ∈ expected false := by
  have hk : t.kind ≠ .operator := fun h => Token.not_isValue_of_operator h ht
  cases e with
  | true => exact cons_mem_unsigned.trans (and_iff_right ht)
  | false =>
    refine cons_mem_behind.trans ⟨?_, fun h => .inl ⟨ht, h⟩⟩
    rintro (h | h | h)
    · exact h.2
    · exact absurd h.1.1 hk
    · exact absurd h.1.1 hk

theorem isFactorial_cons_mem (ht : t.IsFactorial) :
    t :: T ∈ expected false ↔ T ∈ expected false := by
  refine cons_mem_behind.trans ⟨?_, fun h => .inr (.inr ⟨ht, h⟩)⟩
  rintro (h | h | h)
  · exact absurd h.1 (Token.not_isValue_of_operator ht.1)
  · exact absurd ht.2 h.1.value_ne
  · exact h.2

theorem isBinary_cons_mem (ht : t.IsBinary) : t :: T ∈ expected false ↔ T ∈ expected true := by
  refine cons_mem_behind.trans ⟨?_, fun h => .inr (.inl ⟨ht, h⟩)⟩
  rintro (h | h | h)
  · exact absurd h.1 (Token.not_isValue_of_operator ht.1)
  · exact h.2
  · exact absurd h.1.2 ht.value_ne

theorem Viable.nil (e : Bool) : Viable (expected e) [] := by
  have hnil : [] ∈ expected false := nil_mem_expected.mpr rfl
  cases e with
  | true => exact ⟨[.leaf .word "" 0 0], (isValue_cons_mem rfl).mpr hnil⟩
  | false => exact ⟨[], hnil⟩

theorem not_viable_of_not_isValue {e : Bool} (ht : ¬ t.isValue)
    (hk : t.kind = .operator → e = true) : ¬ Viable (expected e) [t] := by
  rintro ⟨U, hU⟩
  cases e with
  | true => exact ht (cons_mem_unsigned.mp hU).1
  | false =>
    rcases cons_mem_behind.mp hU with h | h | h
    · exact ht h.1
    · exact absurd (hk h.1.1) nofun
    · exact absurd (hk h.1.1) nofun

theorem nil_notMem_line : [] ∉ line := by
  rw [line, unsigned_eq, add_mul, one_mul, Language.mem_add, not_or]
  exact ⟨nil_notMem_single_mul, nil_notMem_single_mul⟩

instance decidableExpected : (e : Bool) → (T : List Token) → Decidable (T ∈ expected e)
  | _, [] => decidable_of_iff _ nil_mem_expected.symm
  | true, _ :: T =>
    have := decidableExpected false T
    decidable_of_iff (_ ∧ T ∈ expected false) cons_mem_unsigned.symm
  | false, _ :: T =>
    have := decidableExpected false T
    have := decidableExpected true T
    decidable_of_iff (_ ∧ T ∈ expected false ∨ _ ∧ T ∈ expected true ∨ _ ∧ T ∈ expected false)
      cons_mem_behind.symm

instance : (T : List Token) → Decidable (T ∈ line)
  | [] => .isFalse nil_notMem_line
  | t :: T =>
    decidable_of_iff (t :: T ∈ expected true ∨ _ ∧ T ∈ expected true) cons_mem_line.symm

end Languages

section Refusals

theorem viable_congr (h : ∀ U, t :: U ∈ L ↔ t :: U ∈ L') : Viable L (t :: T) ↔ Viable L' (t :: T) :=
  exists_congr (fun U => h (T ++ U))

theorem viable_cons (h : ∀ U, t :: U ∈ L' ↔ U ∈ L) : Viable L' (t :: T) ↔ Viable L T :=
  exists_congr (fun U => h (T ++ U))

/-- What refuses a line refuses it behind a token that the line may follow. -/
theorem Refused.cons (h : Refused L T f) (hcons : ∀ U, t :: U ∈ L' ↔ U ∈ L) :
    Refused L' (t :: T) f := by
  cases h with
  | @unexpected before after u viable stuck =>
    exact .unexpected ((viable_cons hcons).mpr viable)
      (fun h => stuck ((viable_cons hcons).mp h))
  | @unfinished before op viable binary =>
    exact .unfinished (show Viable L' (t :: before ++ [op]) from (viable_cons hcons).mpr viable)
      binary

/-- A line is refused alike in two languages with the same lines behind its first token. -/
theorem Refused.congr (h : Refused L (t :: T) f) (hnil : Viable L' [])
    (hcons : ∀ U, t :: U ∈ L ↔ t :: U ∈ L') : Refused L' (t :: T) f := by
  generalize hU : t :: T = U at h ⊢
  cases h with
  | @unexpected before after u viable stuck =>
    cases before with
    | nil =>
      obtain ⟨rfl, rfl⟩ := List.cons.inj hU
      exact .unexpected hnil (fun h => stuck ((viable_congr hcons).mpr h))
    | cons b before =>
      obtain ⟨rfl, rfl⟩ := List.cons.inj hU
      exact .unexpected ((viable_congr hcons).mp viable)
        (fun h => stuck ((viable_congr hcons).mpr h))
  | @unfinished before op viable binary =>
    refine .unfinished ?_ binary
    rw [← hU] at viable ⊢
    exact (viable_congr hcons).mp viable

/-- What refuses a line behind its first token refuses the rest of it. -/
theorem Refused.tail {u : Token} (h : Refused L' (t :: u :: T) f) (hnil : Viable L [])
    (hcons : ∀ U, t :: U ∈ L' ↔ U ∈ L) : Refused L (u :: T) f := by
  generalize hU : t :: u :: T = U at h
  cases h with
  | @unexpected before after v viable stuck =>
    cases before with
    | nil =>
      obtain ⟨rfl, rfl⟩ := List.cons.inj hU
      exact absurd ((viable_cons hcons).mpr hnil) stuck
    | cons b before =>
      obtain ⟨rfl, hT⟩ := List.cons.inj hU
      rw [hT]
      exact .unexpected ((viable_cons hcons).mp viable)
        (fun h => stuck ((viable_cons hcons).mpr h))
  | @unfinished before op viable binary =>
    cases before with
    | nil => simp at hU
    | cons b before =>
      obtain ⟨rfl, hT⟩ := List.cons.inj hU
      rw [hT]
      exact .unfinished ((viable_cons hcons).mp viable) binary

theorem Viable.of_prefix {U : List Token} (h : Viable L T) (hU : U <+: T) : Viable L U := by
  obtain ⟨V, rfl⟩ := hU
  obtain ⟨W, hW⟩ := h
  exact ⟨V ++ W, by rwa [← List.append_assoc]⟩

/-- Nothing viable goes beyond a token that nothing can continue. -/
theorem length_le_of_stuck {before after U : List Token} (stuck : ¬ Viable L (before ++ [t]))
    (hviable : Viable L U) (hU : U <+: before ++ t :: after) : U.length ≤ before.length := by
  by_contra hlt
  have hlong : (before ++ [t]).length ≤ U.length := by
    rw [List.length_append, List.length_singleton]
    omega
  have hbefore : before ++ [t] <+: before ++ t :: after := ⟨after, by simp⟩
  exact stuck (hviable.of_prefix (List.prefix_of_prefix_length_le hbefore hU hlong))

/-- There is one way in which a line is refused. -/
theorem Refused.unique {g : Fault} (hf : Refused L T f) (hg : Refused L T g) : f = g := by
  cases hf with
  | @unexpected before after t viable stuck =>
    generalize hT : before ++ t :: after = T at hg
    cases hg with
    | @unexpected before' after' t' viable' stuck' =>
      have hlength : before.length = before'.length :=
        Nat.le_antisymm
          (length_le_of_stuck stuck' viable (hT ▸ List.prefix_append before (t :: after)))
          (length_le_of_stuck stuck viable' (hT ▸ List.prefix_append before' (t' :: after')))
      obtain ⟨rfl, _⟩ := List.cons.inj (List.append_inj_right hT hlength)
      rfl
    | @unfinished before' op viable' binary =>
      rw [← hT, List.append_cons] at viable'
      exact absurd (viable'.of_prefix (List.prefix_append _ _)) stuck
  | @unfinished before op viable binary =>
    generalize hT : before ++ [op] = T at hg
    cases hg with
    | @unexpected before' after' t' viable' stuck' =>
      rw [hT, List.append_cons] at viable
      exact absurd (viable.of_prefix (List.prefix_append _ _)) stuck'
    | @unfinished before' op' viable' binary' =>
      obtain ⟨_, hop⟩ := List.append_inj' hT rfl
      cases hop
      rfl

theorem not_mem_of_not_viable {before after : List Token} (h : ¬ Viable L before) :
    before ++ after ∉ L :=
  fun hm => h ⟨after, hm⟩

end Refusals

end Grammar

end Abacus
