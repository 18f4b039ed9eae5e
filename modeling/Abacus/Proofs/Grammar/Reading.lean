import Abacus.Proofs.Grammar.Language
import Abacus.Proofs.Safety.Anchored
import Abacus.Proofs.Shunting
import Abacus.System.Fraction

/-! The evaluation of a line follows the grammar from left to right: what is left to read is in the
language that the state of the evaluation stands for. -/

namespace Abacus

namespace Eval

open Grammar Run

variable {α : Type} {setup : Setup α} {parts : Parts α} {calls : Nat} {scope : Scope}

/-- The values of the value tokens of a line with their factorials, from left to right; `values`
holds those that were found so far, the last first. -/
def lineValues (setup : Setup α) (parts : Parts α) (calls : Nat) (scope : Scope) :
    List Token → List α → Run α (List α)
  | [], values => return values.reverse
  | t :: rest, values =>
    if t.isValue then do
      let v ← token setup parts calls scope t
      lineValues setup parts calls scope rest (v :: values)
    else if t.IsFactorial then
      match values with
      | v :: values => do
        let w ← factorial setup t v
        lineValues setup parts calls scope rest (w :: values)
      | [] => lineValues setup parts calls scope rest []
    else lineValues setup parts calls scope rest values

/-- The operators of a line, those that are not written included. -/
def lineOperators : Bool → List Token → List Token
  | _, [] => []
  | expectsValue, t :: rest =>
    if t.isValue then
      if expectsValue then lineOperators false rest
      else .leaf .operator "*" t.index t.index :: lineOperators false rest
    else if t.IsFactorial then lineOperators false rest
    else t :: lineOperators true rest

/-- Of a line nothing fails before the form does: what it begins with has values as far as a line of
the language can begin with it. -/
def Evaluates (setup : Setup α) (parts : Parts α) (calls : Nat) (scope : Scope) (L : Language Token)
    (T : List Token) (values : List α) (m : Machine α) : Prop :=
  ∀ U, U <+: T → Viable L U →
    ∃ found m', lineValues setup parts calls scope U values m = .ok found m'

/-- How reading a line ends if nothing but its form can be wrong. -/
inductive Reads (setup : Setup α) (parts : Parts α) (calls : Nat) (scope : Scope) (e : Bool)
    (T : List Token) (values : List α) (ops : List Token) (m : Machine α) : Prop where
  | taken {found : List α} {m' : Machine α} (mem : T ∈ expected e) (some : found ≠ [])
      (evaluated : lineValues setup parts calls scope T values m = .ok found m')
      (read : operands setup parts calls scope T values ops e m =
        .ok (found, ops.reverse ++ lineOperators e T) m')
  | refused {f : Fault} {m' : Machine α} (mem : T ∉ expected e) (refused : Refused (expected e) T f)
      (read : operands setup parts calls scope T values ops e m = .error (.fault f) m')

section Reading

variable {e e' : Bool} {L L' : Language Token} {T : List Token} {t : Token}
  {values values' : List α} {ops ops' : List Token} {m m₁ : Machine α}

theorem exists_of_bind {γ δ : Type} {x : Run α γ} {g : γ → Run α δ} {r : δ} {m m' : Machine α}
    (h : (x >>= g) m = .ok r m') : ∃ v m₁, x m = .ok v m₁ ∧ g v m₁ = .ok r m' := by
  cases hx : x m with
  | ok v m₁ => exact ⟨v, m₁, rfl, (bind_ok hx).symm.trans h⟩
  | error s m₁ =>
    rw [bind_error hx] at h
    cases h

/-- With a whole line all its beginnings have values. -/
theorem evaluates_of_lineValues {found : List α} {m' : Machine α}
    (h : lineValues setup parts calls scope T values m = .ok found m') :
    Evaluates setup parts calls scope L T values m := by
  rintro U ⟨V, rfl⟩ -
  induction U generalizing values m with
  | nil => exact ⟨values.reverse, m, rfl⟩
  | cons t U ih =>
    rw [List.cons_append] at h
    rw [lineValues.eq_def] at h ⊢
    dsimp only at h ⊢
    split at h
    · next hvalue =>
      obtain ⟨v, m₁, hv, hrest⟩ := exists_of_bind h
      obtain ⟨found', m'', hU⟩ := ih hrest
      rw [if_pos hvalue]
      exact ⟨found', m'', (bind_ok hv).trans hU⟩
    · next hvalue =>
      rw [if_neg hvalue]
      split at h
      · next hfactorial =>
        rw [if_pos hfactorial]
        cases values with
        | nil => exact ih h
        | cons v values =>
          obtain ⟨w, m₁, hw, hrest⟩ := exists_of_bind h
          obtain ⟨found', m'', hU⟩ := ih hrest
          exact ⟨found', m'', (bind_ok hw).trans hU⟩
      · next hfactorial =>
        rw [if_neg hfactorial]
        exact ih h

theorem Evaluates.tail (h : Evaluates setup parts calls scope L' (t :: T) values m)
    (hcons : ∀ U, t :: U ∈ L' ↔ U ∈ L)
    (hline : ∀ U, lineValues setup parts calls scope (t :: U) values m =
      lineValues setup parts calls scope U values' m₁) :
    Evaluates setup parts calls scope L T values' m₁ := by
  intro U hU hviable
  rw [← hline]
  exact h (t :: U) (List.cons_prefix_cons.mpr ⟨rfl, hU⟩) ((viable_cons hcons).mpr hviable)

theorem Evaluates.head (h : Evaluates setup parts calls scope L' (t :: T) values m)
    (hcons : ∀ U, t :: U ∈ L' ↔ U ∈ expected e) :
    ∃ found m', lineValues setup parts calls scope [t] values m = .ok found m' :=
  h [t] (List.cons_prefix_cons.mpr ⟨rfl, List.nil_prefix⟩) ((viable_cons hcons).mpr (.nil e))

section Line

variable {v w : α}

theorem lineValues_value (ht : t.isValue) (hv : token setup parts calls scope t m = .ok v m₁)
    (T : List Token) : lineValues setup parts calls scope (t :: T) values m =
      lineValues setup parts calls scope T (v :: values) m₁ := by
  rw [lineValues.eq_def]
  dsimp only
  rw [if_pos ht]
  exact bind_ok hv

theorem lineValues_factorial (ht : t.IsFactorial) (hw : factorial setup t v m = .ok w m₁)
    (T : List Token) : lineValues setup parts calls scope (t :: T) (v :: values) m =
      lineValues setup parts calls scope T (w :: values) m₁ := by
  rw [lineValues.eq_def]
  dsimp only
  rw [if_neg (Token.not_isValue_of_operator ht.1), if_pos ht]
  exact bind_ok hw

theorem lineValues_binary (ht : t.IsBinary) (T : List Token) :
    lineValues setup parts calls scope (t :: T) values m =
      lineValues setup parts calls scope T values m := by
  rw [lineValues.eq_def]
  dsimp only
  rw [if_neg (Token.not_isValue_of_operator ht.1), if_neg (fun h => ht.value_ne h.2)]

/-- A token that may stand where it stands is read, and what follows decides. -/
theorem Reads.cons (hcons : ∀ U, t :: U ∈ expected e ↔ U ∈ expected e')
    (hvalues : lineValues setup parts calls scope (t :: T) values m =
      lineValues setup parts calls scope T values' m₁)
    (hread : operands setup parts calls scope (t :: T) values ops e m =
      operands setup parts calls scope T values' ops' e' m₁)
    (hops : ops.reverse ++ lineOperators e (t :: T) = ops'.reverse ++ lineOperators e' T)
    (h : Reads setup parts calls scope e' T values' ops' m₁) :
    Reads setup parts calls scope e (t :: T) values ops m := by
  cases h with
  | taken mem some evaluated read =>
    exact .taken ((hcons T).mpr mem) some (hvalues.trans evaluated) (by rw [hread, read, hops])
  | refused mem refused read =>
    exact .refused (fun h => mem ((hcons T).mp h)) (refused.cons hcons) (hread.trans read)

theorem Reads.value (ht : t.isValue) (hv : token setup parts calls scope t m = .ok v m₁)
    (h : Reads setup parts calls scope false T (v :: values)
      (if e then ops else .leaf .operator "*" t.index t.index :: ops) m₁) :
    Reads setup parts calls scope e (t :: T) values ops m := by
  refine .cons (fun _ => isValue_cons_mem ht) (lineValues_value ht hv T) ?_ ?_ h
  · rw [operands.eq_def]
    dsimp only
    rw [if_pos ht]
    exact bind_ok hv
  · rw [lineOperators, if_pos ht]
    cases e <;> simp

theorem Reads.factorial (ht : t.IsFactorial) (hw : factorial setup t v m = .ok w m₁)
    (h : Reads setup parts calls scope false T (w :: values) ops m₁) :
    Reads setup parts calls scope false (t :: T) (v :: values) ops m := by
  have hvalue := Token.not_isValue_of_operator ht.1
  refine .cons (fun _ => isFactorial_cons_mem ht) (lineValues_factorial ht hw T) ?_ ?_ h
  · rw [operands.eq_def]
    dsimp only
    rw [if_neg hvalue, if_pos ht.1, if_neg Bool.false_ne_true, if_pos ht.2]
    exact bind_ok hw
  · rw [lineOperators, if_neg hvalue, if_pos ht]

theorem operands_binary (ht : t.IsBinary) (T : List Token) :
    operands setup parts calls scope (t :: T) values ops false m =
      operands setup parts calls scope T values (t :: ops) true m := by
  rw [operands.eq_def]
  dsimp only
  rw [if_neg (Token.not_isValue_of_operator ht.1), if_pos ht.1, if_neg Bool.false_ne_true,
    if_neg ht.value_ne]

theorem Reads.binary (ht : t.IsBinary)
    (h : Reads setup parts calls scope true T values (t :: ops) m) :
    Reads setup parts calls scope false (t :: T) values ops m := by
  refine .cons (fun _ => isBinary_cons_mem ht) (lineValues_binary ht T) (operands_binary ht T) ?_ h
  rw [lineOperators, if_neg (Token.not_isValue_of_operator ht.1),
    if_neg (fun h => ht.value_ne h.2)]
  simp

theorem Reads.unfinished (ht : t.IsBinary) :
    Reads setup parts calls scope false [t] values ops m := by
  have hcons : ∀ U, t :: U ∈ expected false ↔ U ∈ expected true := fun _ => isBinary_cons_mem ht
  have hviable : Viable (expected false) ([] ++ [t]) := (viable_cons hcons).mpr (.nil true)
  exact .refused (fun h => absurd (nil_mem_expected.mp ((hcons []).mp h)) nofun)
    (.unfinished hviable ht) (operands_binary ht [])

theorem operands_stuck (ht : ¬ t.isValue) (hk : t.kind = .operator → e = true) (T : List Token) :
    operands setup parts calls scope (t :: T) values ops e m =
      .error (.fault (unexpected t)) m := by
  rw [operands.eq_def]
  dsimp only
  rw [if_neg ht, unexpected]
  split
  · next hoperator =>
    rw [if_pos (hk hoperator)]
    rfl
  · rfl

/-- A token that may not stand where it stands is refused. -/
theorem Reads.stuck (ht : ¬ t.isValue) (hk : t.kind = .operator → e = true) :
    Reads setup parts calls scope e (t :: T) values ops m := by
  have hstuck : ¬ Viable (expected e) ([] ++ [t]) := not_viable_of_not_isValue ht hk
  exact .refused (not_mem_of_not_viable hstuck) (.unexpected (.nil e) hstuck)
    (operands_stuck ht hk T)

end Line

/-- Reading goes from left to right. Whether a value is expected next is all that matters about what
was read. -/
theorem operands_reads (hregular : ∀ t ∈ T, t.kind = .operator → t.IsFactorial ∨ t.IsBinary)
    (hvalues : Evaluates setup parts calls scope (expected e) T values m)
    (hsome : e = false → values ≠ []) (hne : e = true → T ≠ []) :
    Reads setup parts calls scope e T values ops m := by
  induction T generalizing e values ops m with
  | nil =>
    cases e with
    | true => exact absurd rfl (hne rfl)
    | false =>
      refine .taken (nil_mem_expected.mpr rfl) (by simpa using hsome rfl) rfl ?_
      rw [lineOperators, List.append_nil]
      rfl
  | cons t T ih =>
    obtain ⟨ht, hT⟩ := List.forall_mem_cons.mp hregular
    by_cases hvalue : t.isValue
    · have hcons : ∀ U, t :: U ∈ expected e ↔ U ∈ expected false := fun _ => isValue_cons_mem hvalue
      obtain ⟨v, m₁, hv⟩ : ∃ v m₁, token setup parts calls scope t m = .ok v m₁ := by
        obtain ⟨found, m', h⟩ := hvalues.head hcons
        rw [lineValues.eq_def] at h
        dsimp only at h
        rw [if_pos hvalue] at h
        obtain ⟨v, m₁, hv, _⟩ := exists_of_bind h
        exact ⟨v, m₁, hv⟩
      have htail := hvalues.tail hcons (lineValues_value hvalue hv)
      exact .value hvalue hv (ih hT htail (fun _ => List.cons_ne_nil v values) nofun)
    · by_cases hbegin : t.kind = .operator → e = true
      · exact .stuck hvalue hbegin
      · rw [Classical.not_imp, Bool.not_eq_true] at hbegin
        obtain ⟨hk, rfl⟩ := hbegin
        rcases ht hk with hfactorial | hbinary
        · have hcons : ∀ U, t :: U ∈ expected false ↔ U ∈ expected false :=
            fun _ => isFactorial_cons_mem hfactorial
          obtain ⟨v, values, rfl⟩ := List.exists_cons_of_ne_nil (hsome rfl)
          obtain ⟨w, m₁, hw⟩ : ∃ w m₁, factorial setup t v m = .ok w m₁ := by
            obtain ⟨found, m', h⟩ := hvalues.head hcons
            rw [lineValues.eq_def] at h
            dsimp only at h
            rw [if_neg hvalue, if_pos hfactorial] at h
            obtain ⟨w, m₁, hw, _⟩ := exists_of_bind h
            exact ⟨w, m₁, hw⟩
          have htail := hvalues.tail hcons (lineValues_factorial hfactorial hw)
          exact .factorial hfactorial hw (ih hT htail (fun _ => List.cons_ne_nil w values) nofun)
        · have hcons : ∀ U, t :: U ∈ expected false ↔ U ∈ expected true :=
            fun _ => isBinary_cons_mem hbinary
          by_cases hend : T = []
          · rw [hend]
            exact .unfinished hbinary
          · have htail := hvalues.tail hcons (lineValues_binary hbinary)
            exact .binary hbinary (ih hT htail nofun (fun _ => hend))

/-- The operators of a line that the grammar takes have a precedence. -/
theorem precedence_of_mem_lineOperators (hT : T ∈ expected e) :
    ∀ op ∈ lineOperators e T, (Precedence.of? op.value).isSome = true := by
  induction T generalizing e with
  | nil => exact fun _ h => nomatch h
  | cons t T ih =>
    have hrest : t.isValue →
        ∀ op ∈ lineOperators false T, (Precedence.of? op.value).isSome = true :=
      fun ht => ih ((isValue_cons_mem ht).mp hT)
    rw [lineOperators]
    split
    · next hvalue =>
      split
      · exact hrest hvalue
      · exact List.forall_mem_cons.mpr ⟨rfl, hrest hvalue⟩
    · next hvalue =>
      cases e with
      | true => exact absurd (cons_mem_unsigned.mp hT).1 hvalue
      | false =>
        rcases cons_mem_behind.mp hT with h | h | h
        · exact absurd h.1 hvalue
        · rw [if_neg (fun hf => h.1.value_ne hf.2)]
          exact List.forall_mem_cons.mpr ⟨h.1.2, ih h.2⟩
        · rw [if_pos h.1]
          exact ih h.2

/-- What a line of the grammar comes to: its tree is evaluated. -/
theorem operation_of_operands {first : α} {m' : Machine α} (hT : T ∈ unsigned)
    (hread : operands setup parts calls scope T [] [] true m =
      .ok (first :: values, lineOperators true T) m') :
    operation setup parts calls scope T m =
      Run.orStop ((Postfix.tree first values (lineOperators true T)).evaluate
        (applyOperator setup)) m' := by
  unfold operation
  rw [bind_ok hread]
  simp only [Postfix.rank_eq (precedence_of_mem_lineOperators (e := true) hT),
    Postfix.evaluate_ofInfix]

end Reading

section Line

variable {n : Nat} {first t : Token} {rest : List Token} {offset : Int} {m : Machine α}

theorem token_stuck (ht : t.Anchored n) (hvalue : ¬ t.isValue) :
    token setup parts calls scope t m = .error (.fault (unexpected t)) m := by
  cases ht with
  | @leaf kind _ _ _ _ _ _ =>
    cases kind <;> first | rfl | exact absurd rfl hvalue
  | group _ _ _ _ => exact absurd rfl hvalue
  | call _ _ _ _ => exact absurd rfl hvalue

theorem withZero_anchored (hmade : AllAnchored n (first :: rest)) :
    AllAnchored n (withZero first (first :: rest)) := by
  have hfirst := hmade first List.mem_cons_self
  unfold withZero
  split
  · refine .cons (.leaf hfirst.index_within hfirst.index_within ?_) hmade
    exact .numeral numeral_zero (Nat.le_add_left 1 n)
  · exact hmade

/-- A line of one token is evaluated like any other. -/
theorem token_eq_operation (ht : t.Anchored n) :
    token setup parts calls scope t m = operation setup parts calls scope [t] m := by
  unfold operation
  by_cases hvalue : t.isValue
  · have hread : operands setup parts calls scope [t] [] [] true m =
        (token setup parts calls scope t >>= fun v => pure ([v], [])) m := by
      rw [operands.eq_def]
      dsimp only
      rw [if_pos hvalue]
      rfl
    cases hv : token setup parts calls scope t m with
    | ok v m₁ =>
      rw [bind_ok hv] at hread
      rw [bind_ok hread]
      rfl
    | error s m₁ =>
      rw [bind_error hv] at hread
      rw [bind_error hread]
  · rw [token_stuck ht hvalue, bind_error (operands_stuck hvalue (fun _ => rfl) [])]

theorem expressionWith_eq (hstrict : setup.strict = false) (hmade : AllAnchored n (first :: rest))
    (hlines : ∀ t ∈ first :: rest, t.isNewline = false) (hblock : startsBlock first = false) :
    expressionWith setup parts calls scope (first :: rest) offset m =
      operation setup parts calls scope (withZero first (first :: rest)) m := by
  have hfilter : (first :: rest).filter (fun t => !t.isNewline) = first :: rest :=
    List.filter_eq_self.mpr (fun t ht => by simp [hlines t ht])
  have hwords : strictTokens setup scope (first :: rest) m = .ok (first :: rest) m := by
    unfold strictTokens
    rw [hstrict]
    rfl
  unfold expressionWith
  rw [hfilter]
  dsimp only
  rw [if_neg (by simp [hblock]), bind_ok hwords]
  have hzero := withZero_anchored hmade
  generalize withZero first (first :: rest) = T at hzero ⊢
  match T with
  | [] => rfl
  | [t] => exact token_eq_operation (hzero t List.mem_cons_self)
  | _ :: _ :: _ => rfl

/-- A sign stands where the operator behind a zero stands. -/
theorem cons_mem_line_of_sign (h : first.IsSign) :
    first :: rest ∈ line ↔ first :: rest ∈ behind := by
  have hvalue := Token.not_isValue_of_operator h.1
  rw [cons_mem_line, cons_mem_unsigned]
  exact (or_iff_right (fun hm => hvalue hm.1)).trans
    ((and_iff_right h).trans (isBinary_cons_mem h.binary).symm)

theorem cons_mem_line_of_not_sign (h : ¬ first.IsSign) :
    first :: rest ∈ line ↔ first :: rest ∈ unsigned := by
  rw [cons_mem_line]
  exact or_iff_left (fun hm => h hm.1)

theorem zero_cons_mem {index stop : Int} {T : List Token} :
    .leaf .integer "0" index stop :: T ∈ unsigned ↔ T ∈ behind :=
  cons_mem_unsigned.trans (and_iff_right rfl)

theorem withZero_mem_iff :
    withZero first (first :: rest) ∈ unsigned ↔ first :: rest ∈ line := by
  unfold withZero
  split
  · next h => exact zero_cons_mem.trans (cons_mem_line_of_sign h).symm
  · next h => exact (cons_mem_line_of_not_sign h).symm

theorem refused_of_withZero {f : Fault} (h : Refused unsigned (withZero first (first :: rest)) f) :
    Refused line (first :: rest) f := by
  have hnil : Viable line [] := by
    obtain ⟨U, hU⟩ := Viable.nil true
    refine ⟨U, ?_⟩
    rw [line, add_mul, one_mul]
    exact .inl hU
  unfold withZero at h
  split at h
  · next hsign =>
    have hbehind := h.tail (.nil false) (fun _ => zero_cons_mem)
    exact hbehind.congr hnil (fun _ => (cons_mem_line_of_sign hsign).symm)
  · next hsign => exact h.congr hnil (fun _ => (cons_mem_line_of_not_sign hsign).symm)

/-- Nothing can be wrong with a line but its form: what it begins with has values, and if it is in
the grammar, its operators can be applied. -/
structure Succeeds (setup : Setup α) (parts : Parts α) (calls : Nat) (scope : Scope)
    (T : List Token) (m : Machine α) : Prop where
  values : Evaluates setup parts calls scope unsigned T [] m
  operators : T ∈ unsigned → ∀ a values m',
    lineValues setup parts calls scope T [] m = .ok (a :: values) m' →
      ∃ v, (Postfix.tree a values (lineOperators true T)).evaluate (applyOperator setup) = .ok v

theorem regular_withZero (hmade : AllAnchored n (first :: rest)) :
    ∀ t ∈ withZero first (first :: rest), t.kind = .operator → t.IsFactorial ∨ t.IsBinary := by
  intro t ht hk
  have hzero := withZero_anchored hmade
  rcases (hzero t ht).legible.operator hk with h | h
  · exact .inl ⟨hk, h⟩
  · exact .inr ⟨hk, h⟩

theorem withZero_ne_nil : withZero first (first :: rest) ≠ [] := by
  unfold withZero
  split <;> nofun

/-- Expressions are taken as the grammar says. A line whose values, factorials and operators all
evaluate has a value if and only if it is in the grammar. Its value is that of its tree, a zero
standing in front of a leading sign and a `*` between values without an operator. Otherwise it has
the one fault that refuses it: at the first token that nothing can continue, or at the operator at
its end. -/
theorem expression_follows_grammar (hstrict : setup.strict = false)
    (hmade : AllAnchored n (first :: rest)) (hlines : ∀ t ∈ first :: rest, t.isNewline = false)
    (hblock : startsBlock first = false)
    (hsucceeds : Succeeds setup parts calls scope (withZero first (first :: rest)) m) :
    ((∃ v m', expressionWith setup parts calls scope (first :: rest) offset m = .ok v m') ↔
        first :: rest ∈ line) ∧
      (first :: rest ∈ line → ∃ a values v m',
        lineValues setup parts calls scope (withZero first (first :: rest)) [] m =
            .ok (a :: values) m' ∧
          (Postfix.tree a values (lineOperators true (withZero first (first :: rest)))).evaluate
            (applyOperator setup) = .ok v ∧
          expressionWith setup parts calls scope (first :: rest) offset m = .ok v m') ∧
      (first :: rest ∉ line → ∃ f m', (∀ g, Refused line (first :: rest) g ↔ g = f) ∧
        expressionWith setup parts calls scope (first :: rest) offset m =
          .error (.fault f) m') := by
  rw [expressionWith_eq hstrict hmade hlines hblock, ← withZero_mem_iff]
  have hreads : Reads setup parts calls scope true (withZero first (first :: rest)) [] [] m :=
    operands_reads (regular_withZero hmade) hsucceeds.values nofun (fun _ => withZero_ne_nil)
  cases hreads with
  | @taken found m' mem some evaluated read =>
    obtain ⟨a, values, rfl⟩ := List.exists_cons_of_ne_nil some
    obtain ⟨v, hv⟩ := hsucceeds.operators mem a values m' evaluated
    have hvalue : operation setup parts calls scope (withZero first (first :: rest)) m =
        .ok v m' := by
      rw [operation_of_operands mem read, hv]
      rfl
    exact ⟨⟨fun _ => mem, fun _ => ⟨v, m', hvalue⟩⟩,
      fun _ => ⟨a, values, v, m', evaluated, hv, hvalue⟩, fun h => absurd mem h⟩
  | @refused f m' mem refused read =>
    have hfault : operation setup parts calls scope (withZero first (first :: rest)) m =
        .error (.fault f) m' := by
      unfold operation
      exact bind_error read
    have hrefused := refused_of_withZero refused
    refine ⟨⟨?_, fun h => absurd h mem⟩, fun h => absurd h mem, fun _ => ⟨f, m', ?_, hfault⟩⟩
    · rintro ⟨v, m₁, hv⟩
      cases hfault.symm.trans hv
    · exact fun g => ⟨fun hg => hg.unique hrefused, fun hg => hg ▸ hrefused⟩

end Line

/-- Whether the values and operators of a line all evaluate. -/
def succeeds (setup : Setup α) (parts : Parts α) (calls : Nat) (scope : Scope) (T : List Token)
    (m : Machine α) : Bool :=
  match lineValues setup parts calls scope T [] m with
  | .ok (a :: values) _ =>
    ((Postfix.tree a values (lineOperators true T)).evaluate (applyOperator setup)).isOk
  | _ => false

theorem Succeeds.of_succeeds {T : List Token} {m : Machine α}
    (h : succeeds setup parts calls scope T m = true) : Succeeds setup parts calls scope T m := by
  unfold succeeds at h
  split at h
  · next a values m' hvalues =>
    refine ⟨evaluates_of_lineValues hvalues, fun _ a' values' m'' hvalues' => ?_⟩
    cases hvalues.symm.trans hvalues'
    cases hv : (Postfix.tree a values (lineOperators true T)).evaluate (applyOperator setup) with
    | ok v => exact ⟨v, rfl⟩
    | error f =>
      rw [hv] at h
      cases h
  · cases h

def fractionSetup (source : String) : Setup Rat :=
  ⟨Fraction.system 20 none, source, false, 0, 1000, none, true, false⟩

def fractionParts (source : String) : Parts Rat :=
  ⟨Eval.expression (fractionSetup source) 9, Eval.block (fractionSetup source) 9⟩

def fractionStart : Machine Rat :=
  Machine.start (Fraction.system 20 none) ((Fraction.system 20 none).resources 0 [])

/-- A line with a sign, a factorial and a product that is not written. -/
def signedLine : String :=
  "-3! 4 / 2"

/-- A line with two operators in a row. -/
def brokenLine : String :=
  "2 3! + * 4"

theorem lines_decided :
    (∃ first rest, Token.scan signedLine = first :: rest ∧ first :: rest ∈ line ∧
      ∃ v m', expressionWith (fractionSetup signedLine) (fractionParts signedLine) 9
        Machine.globals (first :: rest) 0 fractionStart = .ok v m') ∧
    ∃ first rest, Token.scan brokenLine = first :: rest ∧ first :: rest ∉ line ∧
      ∃ f m', (∀ g, Refused line (first :: rest) g ↔ g = f) ∧
        expressionWith (fractionSetup brokenLine) (fractionParts brokenLine) 9
          Machine.globals (first :: rest) 0 fractionStart = .error (.fault f) m' := by
  constructor
  · have hscan : Token.scan signedLine = [.leaf .operator "-" 0 1, .leaf .integer "3" 1 2,
        .leaf .operator "!" 2 3, .leaf .integer "4" 4 5, .leaf .operator "/" 6 7,
        .leaf .integer "2" 8 9] := rfl
    refine ⟨_, _, hscan, by decide, ?_⟩
    refine (expression_follows_grammar (n := 9) rfl ?_ (by decide) rfl ?_).1.mpr (by decide)
    · rw [← hscan]
      exact fun _ ht => scan_anchored ht
    · exact .of_succeeds (by decide +kernel)
  · have hscan : Token.scan brokenLine = [.leaf .integer "2" 0 1, .leaf .integer "3" 2 3,
        .leaf .operator "!" 3 4, .leaf .operator "+" 5 6, .leaf .operator "*" 7 8,
        .leaf .integer "4" 9 10] := rfl
    refine ⟨_, _, hscan, by decide, ?_⟩
    refine (expression_follows_grammar (n := 10) rfl ?_ (by decide) rfl ?_).2.2 (by decide)
    · rw [← hscan]
      exact fun _ ht => scan_anchored ht
    · exact .of_succeeds (by decide +kernel)

end Eval

end Abacus
