import Abacus.Proofs.Alike.Lines

/-! Reading statements from lists that correspond: the heads of statements correspond, so the
statements do, or both readings fail alike. -/

namespace Abacus

open Token Statement

namespace ReadsTo

variable {source : String} {strict after : Bool} {t : Token} {rest T : List Token}
  {x y r : Except Fault (List Statement)}

theorem of_terminator (ht : t.isTerminator = true) (h : ReadsTo source strict after (t :: rest) r) :
    ReadsTo source strict after rest r := by
  cases h with
  | skip _ hr => exact hr
  | stuck hf _ | inside hf _ _ | behind hf _ _ _ | cons hf _ _ _ => simp [ht] at hf

theorem of_stuck {f : Fault} (ht : t.isTerminator = false)
    (hh : head source strict after t rest = .error f)
    (h : ReadsTo source strict after (t :: rest) r) : r = .error f := by
  cases h with
  | skip hf _ => simp [ht] at hf
  | stuck _ hh' =>
    rw [hh] at hh'
    cases hh'
    rfl
  | inside _ hh' _ | behind _ hh' _ _ | cons _ hh' _ _ =>
    rw [hh] at hh'
    cases hh'

/-- Behind a head the list is read as far as the head says, and then from there on. -/
theorem of_head {k : Head} (ht : t.isTerminator = false)
    (hh : head source strict after t rest = .ok k)
    (h : ReadsTo source strict after (t :: rest) r) :
    (∃ f, ReadsTo source strict false k.inner (.error f) ∧ r = .error f) ∨
      ∃ body others, ReadsTo source strict false k.inner (.ok body) ∧
        ReadsTo source strict (k.finish body).isCondition k.rest others ∧
        r = others.map (k.finish body :: ·) := by
  cases h with
  | skip hf _ => simp [ht] at hf
  | stuck _ hh' =>
    rw [hh] at hh'
    cases hh'
  | inside _ hh' hi =>
    rw [hh] at hh'
    cases hh'
    exact .inl ⟨_, hi, rfl⟩
  | behind _ hh' hi ho | cons _ hh' hi ho =>
    rw [hh] at hh'
    cases hh'
    exact .inr ⟨_, _, hi, ho, rfl⟩

/-- A list is read in one way. -/
theorem unique (h : ReadsTo source strict after T x) (h' : ReadsTo source strict after T y) :
    x = y := by
  induction h generalizing y with
  | done =>
    cases h'
    rfl
  | skip ht _ ih => exact ih (h'.of_terminator ht)
  | stuck ht hh => exact (h'.of_stuck ht hh).symm
  | inside ht hh _ ih =>
    rcases h'.of_head ht hh with ⟨g, hi', rfl⟩ | ⟨body, others, hi', _, rfl⟩
    · exact congrArg _ (Except.error.inj (ih hi'))
    · cases ih hi'
  | behind ht hh _ _ ihi iho | cons ht hh _ _ ihi iho =>
    rcases h'.of_head ht hh with ⟨g, hi', rfl⟩ | ⟨body, others, hi', ho', rfl⟩
    · cases ihi hi'
    · cases ihi hi'
      rw [← iho ho']
      rfl

theorem ofTokens_eq (h : ReadsTo source strict false T x) : ofTokens source strict T = x :=
  (ofTokens_readsTo source strict T).unique h

end ReadsTo

namespace Likeness

variable {L : Likeness} {t t' : Token} {T T' : List Token}

/-- The first tokens of lists that correspond, and what can be asked of them without knowing whether
the left one is a loose call. -/
structure First (L : Likeness) (t : Token) (T : List Token) (u : Token) (U : List Token) :
    Prop where
  symbol : ∀ value, t.isSymbol value = u.isSymbol value
  operator : t.kind = .operator ↔ u.kind = .operator
  keyword : ∀ value ∈ keywords, t.is .word value = u.is .word value
  block : t.isBlock = u.isBlock
  twin : ¬ L.loose ∨ (∀ n a, t ≠ fuse n a) → L.Twin t u ∧ L.Tokens T U ∧
    (L.loose → t.isName = true → t.value.length = 1 ∧ meets 0 T = false)

theorem not_is_keyword {value : String} (hn : t.isName = true) (hv : value ∈ keywords) :
    t.is .word value = false := by
  by_contra hw
  simp only [Bool.not_eq_false, Token.is, Bool.and_eq_true, beq_iff_eq] at hw
  simp [isName, hw.2, hv] at hn

theorem Tokens.first (h : L.Tokens (t :: T) T') : ∃ u U, T' = u :: U ∧ L.First t T u U := by
  rcases h.uncons with ⟨u, U, rfl, htwin, hU, hname⟩ | ⟨n, a, n', a', U, hl, rfl, rfl, hn, hm, _⟩
  · exact ⟨u, U, rfl, htwin.isSymbol_eq, by rw [htwin.kind_eq],
      fun value _ => htwin.is_eq (by simp) (by simp) value, htwin.isBlock_eq,
      fun _ => ⟨htwin, hU, hname⟩⟩
  · have hm' : n'.isName = true := hn.isName_eq ▸ hm
    have hk := kind_of_isName hm'
    have hcall : (fuse n a).kind = .call := rfl
    refine ⟨n', a' :: U, rfl, fun value => ?_, ?_, fun value hv => ?_, ?_, fun hh => ?_⟩
    · simp only [isSymbol, Token.is, hk, hcall]
      rfl
    · simp [hk, hcall]
    · rw [not_is_keyword hm' hv]
      simp [Token.is, hcall]
    · rw [← (Twin.leaf hn).isBlock_eq, hn.not_block]
      rfl
    · rcases hh with hh | hh
      · exact absurd hl hh
      · exact absurd rfl (hh n a)

namespace First

variable {u : Token} {U : List Token} {value : String}

theorem isTerminator_eq (h : L.First t T u U) : t.isTerminator = u.isTerminator := by
  simp only [isTerminator, h.symbol]

theorem ne_fuse_of_kind (hk : t.kind ≠ .call) (n a : Token) : t ≠ fuse n a := by
  rintro rfl
  exact hk rfl

theorem leaf_of_kind (h : L.First t T u U) (hg : t.kind ≠ .group) (hc : t.kind ≠ .call) :
    L.Leaf t u ∧ L.Tokens T U := by
  obtain ⟨htwin, hU, _⟩ := h.twin (.inr (ne_fuse_of_kind hc))
  exact ⟨htwin.leaf_of_kind hg hc, hU⟩

theorem leaf_of_symbol (h : L.First t T u U) (hs : t.isSymbol value = true) :
    L.Leaf t u ∧ L.Tokens T U := by
  simp only [isSymbol, Token.is, Bool.and_eq_true, beq_iff_eq] at hs
  exact h.leaf_of_kind (by simp [hs.1]) (by simp [hs.1])

theorem leaf_of_is_word (h : L.First t T u U) (hs : t.is .word value = true) :
    L.Leaf t u ∧ L.Tokens T U := by
  simp only [Token.is, Bool.and_eq_true, beq_iff_eq] at hs
  exact h.leaf_of_kind (by simp [hs.1]) (by simp [hs.1])

theorem name (h : L.First t T u U) (hn : t.isName = true) : L.Leaf t u ∧ L.Tokens T U ∧
    (L.loose → t.value.length = 1 ∧ meets 0 T = false) := by
  have hk := kind_of_isName hn
  obtain ⟨htwin, hU, hname⟩ := h.twin (.inr (ne_fuse_of_kind (by simp [hk])))
  exact ⟨htwin.leaf_of_kind (by simp [hk]) (by simp [hk]), hU, fun hl => hname hl hn⟩

theorem twin_of_block (h : L.First t T u U) (hb : t.isBlock = true) :
    L.Twin t u ∧ L.Tokens T U := by
  have hne : ∀ n a, t ≠ fuse n a := by
    rintro n a rfl
    simp [isBlock, inside?, fuse] at hb
  obtain ⟨htwin, hU, _⟩ := h.twin (.inr hne)
  exact ⟨htwin, hU⟩

/-- A fault of the left token, whatever the right side does with a loose call. -/
theorem fault_like {γ δ : Type} {R : γ → δ → Prop} (h : L.First t T u U) (message : String)
    {y : Except Fault δ} (hy : L.Twin t u → y = .error (u.fault message)) :
    L.Agree R (.error (t.fault message)) y := by
  by_cases hl : L.loose
  · exact .lost (L.loose_mode hl).2.2 y
  · obtain ⟨htwin, _⟩ := h.twin (.inl hl)
    rw [hy htwin]
    exact .error (htwin.fault_like message)

end First

/-- Heads of statements that correspond. -/
structure Heads (L : Likeness) (h h' : Head) : Prop where
  inner : L.Tokens h.inner h'.inner
  rest : L.Tokens h.rest h'.rest
  finish : ∀ body body', L.Statements body body' →
    L.Statements [h.finish body] [h'.finish body']

theorem simple_like {s s' : Statement} (hs : L.Statements [s] [s']) (hT : L.Tokens T T') :
    L.Heads (.simple s T) (.simple s' T') :=
  ⟨.nil, hT, fun _ _ _ => hs⟩

theorem originOf_like {stop stop' : Int} (hi : L.spot t.index t'.index)
    (hs : L.spot stop stop') : L.Span (originOf L.source t stop) (originOf L.source' t' stop') :=
  ⟨hi, hs, fun hv => L.slices hv hi hs⟩

section Assignments

variable {name name' op op' equals equals' : Token}

theorem not_name_of_kind (hk : t.kind ≠ .word) : t.isName = false := by
  simp [isName, hk]

theorem operated_like {last last' : Token} (hn : L.Leaf name name')
    (h1 : L.loose → name.value.length = 1) (ho : L.Leaf op op') (hk : op.kind = .operator)
    (hl : L.Tokens [last] [last']) : L.Tokens [name, op, last] [name', op', last'] := by
  refine .leaf hn (fun hh _ => ⟨h1 hh, ?_⟩) (.leaf ho (fun _ hm => ?_) hl)
  · rw [meets_of_significant (significant_of_kind (by simp [hk]))]
    exact ho.not_parenthesized
  · simp [not_name_of_kind (t := op) (by simp [hk])] at hm

theorem stepHead_like {second second' : Token} (hn : L.Leaf name name') (hm : name.isName = true)
    (h1 : L.loose → name.value.length = 1) (ho : L.Leaf op op') (hk : op.kind = .operator)
    (hs : L.Leaf second second') (hT : L.Tokens T T') :
    L.Heads (stepHead L.source name op second T) (stepHead L.source' name' op' second' T') := by
  have hone : L.Tokens [.leaf .integer "1" second.index second.stop]
      [.leaf .integer "1" second'.index second'.stop] :=
    .leaf (.intro hs.starts_index hs.stops_stop nofun) (fun _ hm => nomatch hm) .nil
  refine simple_like (.assign (originOf_like hn.spot_index hs.spot_stop) hn hm
    (operated_like hn h1 ho hk hone) (fun _ => ?_) .nil) hT
  rw [hn.value_eq, ho.value_eq]

theorem bracketed_ne_comma (text : String) : "(" ++ text ++ ")" ≠ "," := by
  intro h
  have hl := congrArg String.toList h
  simp at hl

theorem compoundHead_like (hn : L.Leaf name name') (hm : name.isName = true)
    (h1 : L.loose → name.value.length = 1) (ho : L.Leaf op op') (hk : op.kind = .operator)
    (he : L.Leaf equals equals') (hT : L.Tokens T T') :
    L.Heads (compoundHead L.source name op equals T)
      (compoundHead L.source' name' op' equals' T') := by
  obtain ⟨hvalue, hrest⟩ := hT.line_like
  have hstop := hvalue.stopOf_like he.stops_stop
  have hspot := L.spot_of_stops hstop
  have hstart := hvalue.spot_first he.spot_stop
  have hlabel : L.Label ("(" ++ sourceOf L.source (line T).1 ++ ")")
      ("(" ++ sourceOf L.source' (line T').1 ++ ")") :=
    ⟨fun hv => by rw [hvalue.sourceOf_like hv], by simp [bracketed_ne_comma]⟩
  have hopener : L.Edge (.leaf .symbol "(" _ _) (.leaf .symbol "(" _ _) := .intro hstart hstart
  have hcloser : L.Edge (.leaf .symbol ")" _ _) (.leaf .symbol ")" _ _) := .intro hspot hspot
  have hgroup := Tokens.group hlabel hstart (fun hne => absurd rfl hne) hstop hopener hcloser
    hvalue .nil
  refine simple_like (.assign (originOf_like hn.spot_index hspot) hn hm
    (operated_like hn h1 ho hk hgroup) (fun hv => ?_) .nil) hrest
  have hsource : sourceOf L.source (lineFrom 0 T).1 = sourceOf L.source' (lineFrom 0 T').1 :=
    hvalue.sourceOf_like hv
  rw [hn.value_eq, ho.value_eq, hsource]

theorem compound_like (hn : L.Leaf name name') (hm : name.isName = true)
    (h1 : L.loose → name.value.length = 1) (hT : L.Tokens T T') :
    Option.Rel L.Heads (compound? L.source name T) (compound? L.source' name' T') := by
  cases T with
  | nil =>
    cases hT
    exact .none
  | cons op T =>
    obtain ⟨op', U, rfl, hop⟩ := hT.first
    by_cases hk : op.kind = .operator
    · obtain ⟨ho, hU⟩ := hop.leaf_of_kind (by simp [hk]) (by simp [hk])
      have hk' : op'.kind = .operator := ho.kind_eq ▸ hk
      cases T with
      | nil =>
        cases hU
        exact .none
      | cons second T =>
        obtain ⟨second', U, rfl, hsecond⟩ := hU.first
        by_cases hs : second.kind = .operator
        · -- the second operator may be the same as the first
          obtain ⟨hsl, hU⟩ := hsecond.leaf_of_kind (by simp [hs]) (by simp [hs])
          have hs' : second'.kind = .operator := hsl.kind_eq ▸ hs
          have heq : second.isSymbol "=" = false := by simp [isSymbol, Token.is, hs]
          have heq' : second'.isSymbol "=" = false := by simp [isSymbol, Token.is, hs']
          have hend : T.head?.all isTerminator = U.head?.all isTerminator := by
            cases T with
            | nil =>
              cases hU
              rfl
            | cons x T =>
              obtain ⟨x', U, rfl, hx⟩ := hU.first
              simp only [List.head?_cons, Option.all_some, isTerminator, hx.symbol]
          simp only [compound?, hk, hk', hs, hs', heq, heq', ← ho.value_eq, ← hsl.value_eq, ← hend]
          split
          · split
            · split
              · exact .some (stepHead_like hn hm h1 ho hk hsl hU)
              · exact .none
            · exact .none
          · exact .none
        · have hs' : second'.kind ≠ .operator := fun hh => hs (hsecond.operator.mpr hh)
          simp only [compound?, hk, hk', hs, hs', ← ho.value_eq, ← hsecond.symbol, false_and,
            and_false, if_false]
          split
          · split
            · next he =>
              obtain ⟨hel, hU⟩ := hsecond.leaf_of_symbol he
              exact .some (compoundHead_like hn hm h1 ho hk hel hU)
            · exact .none
          · exact .none
    · have hk' : op'.kind ≠ .operator := fun hh => hk (hop.operator.mpr hh)
      have hnone : ∀ {source : String} {name op : Token} {T : List Token}, op.kind ≠ .operator →
          compound? source name (op :: T) = none := by
        intro source name op T hne
        cases T <;> simp [compound?, hne]
      rw [hnone hk, hnone hk']
      exact .none

theorem assignHead_like {first first' : Token} (hf : L.Leaf first first') (hn : L.Leaf name name')
    (hm : name.isName = true) (he : L.Leaf equals equals') (fresh constant : Bool)
    (hT : L.Tokens T T') :
    L.Heads (assignHead L.source first name equals fresh constant T)
      (assignHead L.source' first' name' equals' fresh constant T') := by
  obtain ⟨hvalue, hrest⟩ := hT.line_like
  have hstop := hvalue.spot_stopOf he.stops_stop
  exact simple_like (.assign (originOf_like hf.spot_index hstop) hn hm hvalue
    hvalue.sourceOf_like .nil) hrest

theorem assign_like (h : L.Twin t t') (hT : L.Tokens T T')
    (hn : L.loose → t.isName = true → t.value.length = 1 ∧ meets 0 T = false) :
    Option.Rel L.Heads (assign? L.source t T) (assign? L.source' t' T') := by
  by_cases hm : t.isName = true
  · have hname := h.leaf_of_isName hm
    have hm' : t'.isName = true := hname.isName_eq ▸ hm
    have hcompound := compound_like hname hm (fun hl => (hn hl hm).1) hT
    simp only [assign?, hm, hm', if_true]
    generalize compound? L.source t T = x at hcompound ⊢
    generalize compound? L.source' t' T' = y at hcompound ⊢
    cases hcompound with
    | some hh => exact .some hh
    | none =>
      cases T with
      | nil =>
        cases hT
        exact .none
      | cons equals T =>
        obtain ⟨equals', U, rfl, hequals⟩ := hT.first
        simp only [← hequals.symbol]
        split
        · next he =>
          obtain ⟨hel, hU⟩ := hequals.leaf_of_symbol he
          exact .some (assignHead_like hname hname hm hel false false hU)
        · exact .none
  · have hm' : t'.isName = false := by simpa [h.isName_eq] using hm
    simp only [assign?, hm, hm']
    exact .none

theorem declareHead_like {keyword keyword' : Token} (hk : L.Leaf keyword keyword')
    (constant : Bool) (hT : L.Tokens T T') :
    L.Agree L.Heads (declareHead L.source keyword constant T)
      (declareHead L.source' keyword' constant T') := by
  cases T with
  | nil =>
    cases hT
    exact .error (hk.fault_like _)
  | cons name T =>
    obtain ⟨name', U, rfl, hfirst⟩ := hT.first
    by_cases hm : name.isName = true
    · obtain ⟨hn, hU, _⟩ := hfirst.name hm
      have hm' : name'.isName = true := hn.isName_eq ▸ hm
      cases T with
      | nil =>
        cases hU
        simp only [declareHead, hm, hm', if_true]
        exact .error (hn.fault_like _)
      | cons equals T =>
        obtain ⟨equals', U, rfl, hequals⟩ := hU.first
        simp only [declareHead, hm, hm', if_true, ← hequals.symbol]
        split
        · next he =>
          obtain ⟨hel, hU⟩ := hequals.leaf_of_symbol he
          exact .ok (assignHead_like hk hn hm hel true constant hU)
        · exact .error (hn.fault_like _)
    · simp only [declareHead, hm]
      refine hfirst.fault_like _ (fun htwin => ?_)
      rw [htwin.isName_eq] at hm
      simp [hm]

theorem declare_like (h : L.Twin t t') (hT : L.Tokens T T') :
    Option.Rel (L.Agree L.Heads) (declare? L.source t T) (declare? L.source' t' T') := by
  have hw : ∀ value, t.is .word value = t'.is .word value := h.is_eq (by simp) (by simp)
  simp only [declare?, ← hw]
  split
  · next hlet =>
    exact .some (declareHead_like (h.leaf_of_is hlet (by simp) (by simp)) false hT)
  · split
    · next hconst =>
      exact .some (declareHead_like (h.leaf_of_is hconst (by simp) (by simp)) true hT)
    · exact .none

end Assignments

section Definitions

theorem parameterName_like (h : L.Twin t t')
    (hn : L.loose → t.isName = true → t.value.length = 1) :
    L.Agree Eq (parameterName L.strict t) (parameterName L.strict' t') := by
  by_cases hm : t.isName = true
  · have hname := h.leaf_of_isName hm
    have hm' : t'.isName = true := hname.isName_eq ▸ hm
    have hlong : (L.strict && t.value.length != 1) = (L.strict' && t'.value.length != 1) := by
      by_cases hl : L.loose
      · obtain ⟨hs, hs', _⟩ := L.loose_mode hl
        simp [hs, hs', ← hname.value_eq, hn hl hm]
      · rw [L.same_mode hl, hname.value_eq]
    simp only [parameterName, hm, hm', if_true, ← hlong]
    split
    · exact .error (hname.fault_like _)
    · exact .ok hname.value_eq
  · have hm' : t'.isName = false := by simpa [h.isName_eq] using hm
    simp only [parameterName, hm, hm']
    exact .error (h.fault_like _)

theorem parameterNames_cons (strict : Bool) (t : Token) (T : List Token) :
    parameterNames strict (t :: T) = (parameterName strict t).bind (fun name =>
      match T with
      | [] => .ok [name]
      | comma :: rest =>
        if comma.value = "," then
          match rest with
          | [] => .error (comma.fault "Expected a variable name for the function parameter.")
          | _ => (parameterNames strict rest).map (name :: ·)
        else .error (comma.fault "Expected a comma between the parameters of the function.")) := by
  cases T with
  | nil => rfl
  | cons comma rest =>
    simp only [parameterNames]
    cases parameterName strict t with
    | error f => rfl
    | ok name =>
      simp only [bind, Except.bind]
      split
      · cases rest with
        | nil => rfl
        | cons u rest => cases parameterNames strict (u :: rest) <;> rfl
      · rfl

theorem parameterNames_like : ∀ {T T' : List Token}, L.Row T T' →
    L.Agree Eq (parameterNames L.strict T) (parameterNames L.strict' T')
  | _, _, .nil => .ok rfl
  | _, _, .lost hl _ => by
    rw [parameterNames_cons]
    exact .lost (L.loose_mode hl).2.2 _
  | _, _, .cons (t := t) h hn hT => by
    rw [parameterNames_cons, parameterNames_cons]
    refine (parameterName_like h hn).bind ?_
    rintro name _ rfl
    cases hT with
    | nil => exact .ok rfl
    | lost hl hv =>
      simp only [show ∀ n a : Token, (fuse n a).value = n.value ++ a.value from fun _ _ => rfl, hv,
        if_false]
      exact .lost (L.loose_mode hl).2.2 _
    | cons hc _ hrest =>
      simp only [← hc.label.comma]
      split
      · cases hrest with
        | nil => exact .error (hc.fault_like _)
        | lost hl _ =>
          simp only [parameterNames_cons]
          exact .lost (L.loose_mode hl).2.2 _
        | cons hu hn' hrest =>
          exact (parameterNames_like (.cons hu hn' hrest)).map (fun _ _ hh => by rw [hh])
      · exact .error (hc.fault_like _)

theorem defineHead_like {call call' name name' arguments arguments' equals equals' : Token}
    (hc : L.spot call.index call'.index) (hn : L.Leaf name name')
    (hm : L.loose → name.isName = true) (ha : L.Twin arguments arguments')
    (he : L.Leaf equals equals') (hT : L.Tokens T T') :
    L.Agree L.Heads (defineHead L.source L.strict call name arguments equals T)
      (defineHead L.source' L.strict' call' name' arguments' equals' T') := by
  obtain ⟨hvalue, hrest⟩ := hT.line_like
  have hspan := originOf_like hc (hvalue.spot_stopOf he.stops_stop)
  refine (parameterNames_like ha.children_tokens.row).bind ?_
  rintro names _ rfl
  exact .ok (simple_like (.define hspan hn hm hvalue hvalue.sourceOf_like .nil) hrest)

theorem define_eq {source : String} {strict : Bool}
    (hc : ∀ kind value index stop n a, t ≠ .call kind value index stop n a) :
    define? source strict t T =
      match T with
      | arguments :: equals :: rest =>
        if strict && t.isName && arguments.isParenthesized && equals.isSymbol "=" then
          some (defineHead source strict (fuse t arguments) t arguments equals rest)
        else none
      | _ => none := by
  cases t with
  | call kind value index stop n a => exact absurd rfl (hc _ _ _ _ n a)
  | leaf kind value index stop => cases T <;> rfl
  | group kind value index stop children opener closer => cases T <;> rfl

theorem define_none {source : String} {strict : Bool}
    (hc : ∀ kind value index stop n a, t ≠ .call kind value index stop n a)
    (hn : t.isName = true → strict = true → ∀ a rest, T = a :: rest → a.isParenthesized = false) :
    define? source strict t T = none := by
  rw [define_eq hc]
  split
  · next arguments equals rest =>
    rw [if_neg]
    simp only [Bool.and_eq_true, not_and, Bool.not_eq_true]
    rintro ⟨⟨hs, hm⟩, hp⟩
    rw [hn hm hs arguments _ rfl] at hp
    cases hp
  · rfl

/-- A bracket on the right comes from one on the left. -/
theorem Tokens.not_meets (h : L.Tokens T T') (hl : L.loose) (hm : meets 0 T = false) :
    ∀ a rest, T' = a :: rest → a.isParenthesized = false := by
  rintro a rest rfl
  cases h with
  | leaf h _ _ => exact (Twin.leaf h).isParenthesized_eq ▸ h.not_parenthesized
  | group hv hi hb hs ho hc hC _ =>
    rw [meets_of_significant (significant_of_kind (by simp [Token.kind]))] at hm
    exact (Twin.group hv hi hb hs ho hc hC).isParenthesized_eq ▸ hm
  | call hl' _ _ _ _ _ => exact absurd hl hl'
  | loose _ hn _ _ _ _ _ _ => exact (Twin.leaf hn).isParenthesized_eq ▸ hn.not_parenthesized

/-- A definition whose call is not yet put together, on both sides. -/
theorem define_name_like (hl : ¬ L.loose) (h : L.Leaf t t') (hm : t.isName = true)
    (hT : L.Tokens T T') :
    Option.Rel (L.Agree L.Heads) (define? L.source L.strict t T)
      (define? L.source' L.strict' t' T') := by
  have hm' : t'.isName = true := h.isName_eq ▸ hm
  rw [define_eq h.not_call.1, define_eq h.not_call.2, ← L.same_mode hl]
  rcases T with _ | ⟨a, T⟩
  · cases hT
    exact .none
  · obtain ⟨a', U, rfl, hfirst⟩ := hT.first
    obtain ⟨ha, hU, _⟩ := hfirst.twin (.inl hl)
    rcases T with _ | ⟨equals, T⟩
    · cases hU
      exact .none
    · obtain ⟨equals', U, rfl, hequals⟩ := hU.first
      simp only [hm, hm', ← ha.isParenthesized_eq, ← hequals.symbol]
      split
      · next hh =>
        simp only [Bool.and_eq_true] at hh
        obtain ⟨hel, hU⟩ := hequals.leaf_of_symbol hh.2
        have hdefine : L.Agree L.Heads
            (defineHead L.source L.strict (fuse t a) t a equals T)
            (defineHead L.source' L.strict' (fuse t' a') t' a' equals' U) :=
          defineHead_like h.spot_index h (fun _ => hm) ha hel hU
        rw [← L.same_mode hl] at hdefine
        exact .some hdefine
      · exact .none

theorem define_like (h : L.Twin t t') (hT : L.Tokens T T')
    (hn : L.loose → t.isName = true → t.value.length = 1 ∧ meets 0 T = false) :
    Option.Rel (L.Agree L.Heads) (define? L.source L.strict t T)
      (define? L.source' L.strict' t' T') := by
  by_cases hm : t.isName = true
  · have hname := h.leaf_of_isName hm
    by_cases hl : L.loose
    · obtain ⟨hs, hs', _⟩ := L.loose_mode hl
      rw [define_none hname.not_call.1 (fun _ hh => by simp [hs] at hh),
        define_none hname.not_call.2 (fun _ _ => hT.not_meets hl (hn hl hm).2)]
      exact .none
    · exact define_name_like hl hname hm hT
  · have hm' : t'.isName = false := by simpa [h.isName_eq] using hm
    cases h with
    | leaf h =>
      rw [define_none h.not_call.1 (fun hh => absurd hh hm),
        define_none h.not_call.2 (fun hh => by simp [hm'] at hh)]
      exact .none
    | @group v v' i i' s s' C C' o o' c c' hv hi hb hs ho hc hC =>
      have hleft : define? L.source L.strict (.group .group v i s C o c) T = none :=
        define_none nofun nofun
      have hright : define? L.source' L.strict' (.group .group v' i' s' C' o' c') T' = none :=
        define_none nofun nofun
      rw [hleft, hright]
      exact .none
    | call hl hname hv ha hp =>
      rcases T with _ | ⟨equals, T⟩
      · cases hT
        exact .none
      · obtain ⟨equals', U, rfl, hequals⟩ := hT.first
        simp only [fuse, define_call_eq, ← hequals.symbol]
        split
        · next he =>
          obtain ⟨hel, hU⟩ := hequals.leaf_of_symbol he
          exact .some
            (defineHead_like hname.spot_index hname (fun hh => absurd hh hl) ha.twin hel hU)
        · exact .none

end Definitions

section Blocks

variable {keyword keyword' : Token} {what : String}

theorem blockHead_like {make make' : Origin → List Statement → Statement}
    (hk : L.Leaf keyword keyword')
    (hmake : ∀ o o' body body', L.Span o o' → L.Statements body body' →
      L.Statements [make o body] [make' o' body']) (hT : L.Tokens T T') :
    L.Agree L.Heads (blockHead L.source keyword what make T)
      (blockHead L.source' keyword' what make' T') := by
  cases T with
  | nil =>
    cases hT
    exact .error (hk.fault_like _)
  | cons block T =>
    obtain ⟨block', U, rfl, hfirst⟩ := hT.first
    simp only [blockHead, ← hfirst.block]
    split
    · next hb =>
      obtain ⟨htwin, hU⟩ := hfirst.twin_of_block hb
      refine .ok ⟨htwin.children_tokens, hU, fun body body' hbody => ?_⟩
      exact hmake _ _ _ _ (originOf_like hk.spot_index htwin.spot_stop) hbody
    · exact .error (hk.fault_like _)

theorem conditionHead_like {make make' : Origin → List Token → List Statement → String → Statement}
    (hk : L.Leaf keyword keyword')
    (hmake : ∀ o o' c c' body body' x x', L.Span o o' → L.Tokens c c' → L.Statements body body' →
      L.Text x x' → L.Statements [make o c body x] [make' o' c' body' x'])
    (hT : L.Tokens T T') :
    L.Agree L.Heads (conditionHead L.source keyword what make T)
      (conditionHead L.source' keyword' what make' T') := by
  have hblock := hT.blockFrom_like 0
  unfold conditionHead
  generalize blockFrom 0 T = x at hblock ⊢
  generalize blockFrom 0 T' = y at hblock ⊢
  cases hblock with
  | none => exact .error (hk.fault_like _)
  | @some x y hcut =>
    obtain ⟨condition, block, rest⟩ := x
    obtain ⟨condition', block', rest'⟩ := y
    obtain ⟨hcondition, htwin, hrest⟩ := hcut
    simp only [← hcondition.isEmpty_eq]
    split
    · exact .error (hk.fault_like _)
    · refine .ok ⟨htwin.children_tokens, hrest, fun body body' hbody => ?_⟩
      exact hmake _ _ _ _ _ _ _ _ (originOf_like hk.spot_index htwin.spot_stop) hcondition hbody
        hcondition.sourceOf_like

theorem elseHead_like (after : Bool) (hk : L.Leaf keyword keyword') (hT : L.Tokens T T') :
    L.Agree L.Heads (elseHead L.source after keyword T) (elseHead L.source' after keyword' T') := by
  have hplain : L.Agree L.Heads
      (blockHead L.source keyword "else" (fun o body => .otherwise o keyword body) T)
      (blockHead L.source' keyword' "else" (fun o body => .otherwise o keyword' body) T') :=
    blockHead_like hk (fun _ _ _ _ ho hb => .otherwise ho hk hb .nil) hT
  cases after with
  | false => exact .error (hk.fault_like _)
  | true =>
    cases T with
    | nil =>
      cases hT
      exact hplain
    | cons t T =>
      obtain ⟨t', U, rfl, hfirst⟩ := hT.first
      simp only [elseHead, if_true, ← hfirst.keyword "if" (by simp [keywords])]
      split
      · next hw =>
        obtain ⟨_, hU⟩ := hfirst.leaf_of_is_word hw
        exact conditionHead_like hk
          (fun _ _ _ _ _ _ _ _ ho hc hb hx => .elseIf ho hk hc hb hx .nil) hU
      · exact hplain

theorem counterHead_like {withWord withWord' : Token} {amount amount' : List Token}
    (hk : L.Leaf keyword keyword') (hw : L.Leaf withWord withWord') (ha : L.Tokens amount amount')
    (hT : L.Tokens T T') :
    L.Agree L.Heads (counterHead L.source keyword withWord amount T)
      (counterHead L.source' keyword' withWord' amount' T') := by
  cases T with
  | nil =>
    cases hT
    exact .error (hw.fault_like _)
  | cons counter T =>
    obtain ⟨counter', U, rfl, hfirst⟩ := hT.first
    by_cases hm : counter.isName = true
    · obtain ⟨hn, hU, _⟩ := hfirst.name hm
      have hm' : counter'.isName = true := hn.isName_eq ▸ hm
      simp only [counterHead, hm, hm', if_true]
      exact blockHead_like hk
        (fun _ _ _ _ ho hb => .repeatWith ho hk ha hn hm hb ha.sourceOf_like .nil) hU
    · simp only [counterHead, hm]
      refine hfirst.fault_like _ (fun htwin => ?_)
      rw [htwin.isName_eq] at hm
      simp [hm]

theorem timesHead_like (hk : L.Leaf keyword keyword') (hT : L.Tokens T T') :
    L.Agree L.Heads (timesHead L.source keyword T) (timesHead L.source' keyword' T') := by
  have hamount := hT.amountFrom_like
  unfold timesHead
  generalize amountFrom T = x at hamount ⊢
  generalize amountFrom T' = y at hamount ⊢
  cases hamount with
  | none => exact .error (hk.fault_like _)
  | @some x y hcut =>
    obtain ⟨amount, rest⟩ := x
    obtain ⟨amount', rest'⟩ := y
    obtain ⟨ha, hrest⟩ := hcut
    simp only at ha hrest
    have hplain : L.Agree L.Heads
        (blockHead L.source keyword "the repeat loop" (fun o body =>
          .repeatTimes o keyword amount body (sourceOf L.source amount)) rest)
        (blockHead L.source' keyword' "the repeat loop" (fun o body =>
          .repeatTimes o keyword' amount' body (sourceOf L.source' amount')) rest') :=
      blockHead_like hk (fun _ _ _ _ ho hb => .repeatTimes ho hk ha hb ha.sourceOf_like .nil) hrest
    simp only [← ha.isEmpty_eq]
    split
    · exact .error (hk.fault_like _)
    · cases rest with
      | nil =>
        cases hrest
        exact hplain
      | cons t rest =>
        obtain ⟨t', U, rfl, hfirst⟩ := hrest.first
        simp only [← hfirst.keyword "with" (by simp [keywords])]
        split
        · next hw =>
          obtain ⟨hwith, hU⟩ := hfirst.leaf_of_is_word hw
          exact counterHead_like hk hwith ha hU
        · exact hplain

theorem repeatHead_like (hk : L.Leaf keyword keyword') (hT : L.Tokens T T') :
    L.Agree L.Heads (repeatHead L.source keyword T) (repeatHead L.source' keyword' T') := by
  cases T with
  | nil =>
    cases hT
    exact timesHead_like hk .nil
  | cons t T =>
    obtain ⟨t', U, rfl, hfirst⟩ := hT.first
    simp only [repeatHead, ← hfirst.keyword "until" (by simp [keywords])]
    split
    · next hw =>
      obtain ⟨_, hU⟩ := hfirst.leaf_of_is_word hw
      exact conditionHead_like hk
        (fun _ _ _ _ _ _ _ _ ho hc hb hx => .repeatUntil ho hk hc hb hx .nil) hU
    · exact timesHead_like hk hT

end Blocks

section Keywords

variable {keyword keyword' : Token}

theorem returnHead_like (hk : L.Leaf keyword keyword') (hT : L.Tokens T T') :
    L.Heads (returnHead L.source keyword T) (returnHead L.source' keyword' T') := by
  obtain ⟨hvalue, hrest⟩ := hT.line_like
  have hspan := originOf_like hk.spot_index (hvalue.spot_stopOf hk.stops_stop)
  exact simple_like (.giveBack hspan hk hvalue .nil) hrest

/-- The fault of a `throw` blames its word and shows the rest of its line. -/
theorem thrown_like (hk : L.Leaf keyword keyword') (hw : keyword.is .word "throw" = true)
    {V V' : List Token} (hV : L.Tokens V V') :
    L.faults
      (.thrown keyword.index (sourceOf L.source V)
        (Text.slice L.source keyword.index (stopOf V keyword.stop)))
      (.thrown keyword'.index (sourceOf L.source' V')
        (Text.slice L.source' keyword'.index (stopOf V' keyword'.stop))) := by
  have hw' : keyword'.is .word "throw" = true := hk.is_eq .word "throw" ▸ hw
  have hwords : L.words keyword keyword' := by
    simp only [Token.is, Bool.and_eq_true, beq_iff_eq] at hw
    exact hk.words_of_kind hw.1
  have hstop := hV.spot_stopOf hk.stops_stop
  cases V with
  | nil =>
    cases hV
    refine L.plain hk.spot_index (fun hv => ?_)
    rw [L.slices hv hk.spot_index hstop]
  | cons v V =>
    have hfirst := hV.spot_first hk.spot_stop
    obtain ⟨v', U, rfl, _⟩ := hV.first
    rw [sourceOf_cons, sourceOf_cons, ← stopOf_cons v V keyword.stop,
      ← stopOf_cons v' U keyword'.stop]
    exact L.thrown hwords hw hw' hfirst hk.spot_index hstop

theorem keywordHead_like (after : Bool) (h : L.Twin t t') (hT : L.Tokens T T') :
    Option.Rel (L.Agree L.Heads) (keywordHead? L.source after t T)
      (keywordHead? L.source' after t' T') := by
  by_cases hk : t.kind = .word
  · have hl := h.leaf_of_kind (by simp [hk]) (by simp [hk])
    have hk' : t'.kind = .word := hl.kind_eq ▸ hk
    obtain ⟨hvalue, hrest⟩ := hT.line_like
    have hspan := originOf_like hl.spot_index (hvalue.spot_stopOf hl.stops_stop)
    simp only [keywordHead?, hk, hk', if_true, ← hl.value_eq]
    split
    · exact .some (conditionHead_like hl
        (fun _ _ _ _ _ _ _ _ ho hc hb hx => .ifThen ho hl hc hb hx .nil) hT)
    · exact .some (elseHead_like after hl hT)
    · exact .some (repeatHead_like hl hT)
    · exact .some (blockHead_like hl (fun _ _ _ _ ho hb => .loop ho hl hb .nil) hT)
    · exact .some (.ok (returnHead_like hl hT))
    · exact .some (.ok (simple_like (.leave (originOf_like hl.spot_index hl.spot_stop) hl .nil) hT))
    · exact .some (.ok (simple_like (.print hspan hl hvalue.sourceOf_like .nil) hrest))
    · next hv =>
      have hw : t.is .word "throw" = true := by simp [Token.is, hk, hv]
      exact .some (.ok (simple_like
        (.throw hspan hl hvalue.sourceOf_like (thrown_like hl hw hvalue) .nil) hrest))
    · exact .none
  · have hk' : t'.kind ≠ .word := h.kind_eq ▸ hk
    simp only [keywordHead?, hk, hk', if_false]
    exact .none

end Keywords

section Reading

/-- A line that starts with a value; the tokens of its expression correspond as a list. -/
theorem inlineHead_like (h : L.Twin t t') (hT : L.Tokens T T')
    (hn : L.loose → t.isName = true → t.value.length = 1 ∧ meets 0 T = false) :
    L.Agree L.Heads (inlineHead L.source t T) (inlineHead L.source' t' T') := by
  obtain ⟨hvalue, hrest⟩ := hT.line_like
  have hspan := originOf_like h.spot_index (hvalue.spot_stopOf h.stops_stop)
  have hall : L.Tokens (t :: (line T).1) (t' :: (line T').1) := by
    cases h with
    | leaf h =>
      refine .leaf h (fun hl hm => ⟨(hn hl hm).1, ?_⟩) hvalue
      exact meets_lineFrom (Nat.le_refl 0) (hn hl hm).2
    | group hv hi hb hs ho hc hC => exact .group hv hi hb hs ho hc hC hvalue
    | call hl hname hv ha hp => exact .call hl hname hv ha hp hvalue
  simp only [inlineHead, ← h.isValue_eq]
  split
  · exact .ok (simple_like (.inline hspan hall .nil) hrest)
  · exact .error (h.fault_like _)

theorem orElse_like {γ δ : Type} {R : γ → δ → Prop} {x u : Option γ} {y v : Option δ}
    (h : Option.Rel R x y) (h' : Option.Rel R u v) : Option.Rel R (x <|> u) (y <|> v) := by
  cases h with
  | none => simpa using h'
  | some h => exact .some h

theorem keywordHead_of_isName {source : String} (after : Bool) (hm : t.isName = true) :
    keywordHead? source after t T = none := by
  have hne : ∀ value ∈ keywords, t.value ≠ value := by
    rintro value hv rfl
    simp [isName, hv] at hm
  simp only [keywordHead?, kind_of_isName hm, if_true]
  split
  case h_9 => rfl
  all_goals
    next hv => exact absurd hv (hne _ (by simp [keywords]))

theorem declare_of_isName {source : String} (hm : t.isName = true) :
    declare? source t T = none := by
  have hlet : t.is .word "let" = false := not_is_keyword hm (by simp [keywords])
  have hconst : t.is .word "const" = false := not_is_keyword hm (by simp [keywords])
  simp [declare?, hlet, hconst]

/-- A loose call: on the left one token, on the right a name and the bracket behind it. -/
theorem loose_head_like {n n' a a' : Token} (after : Bool) (hl : L.loose) (hn : L.Leaf n n')
    (hm : n.isName = true) (hv : n.value ++ a.value ≠ ",") (ha : L.Tokens [a] [a'])
    (hp : a.isParenthesized = true) (ht : n'.stop = a'.index) (hT : L.Tokens T T') :
    L.Agree L.Heads (head L.source L.strict after (fuse n a) T)
      (head L.source' L.strict' after n' (a' :: T')) := by
  have hm' : n'.isName = true := hn.isName_eq ▸ hm
  have hp' : a'.isParenthesized = true := ha.twin.isParenthesized_eq ▸ hp
  have hk' := (ha.twin.group_kind hp).2
  obtain ⟨_, hstrict, _⟩ := L.loose_mode hl
  have hleft : head L.source L.strict after (fuse n a) T =
      (define? L.source L.strict (fuse n a) T).getD (inlineHead L.source (fuse n a) T) := by
    have hassign : assign? L.source (fuse n a) T = none := rfl
    have hdeclare : declare? L.source (fuse n a) T = none := rfl
    have hkeyword : keywordHead? L.source after (fuse n a) T = none := rfl
    simp [head, hassign, hdeclare, hkeyword]
  have hright : head L.source' L.strict' after n' (a' :: T') =
      (define? L.source' L.strict' n' (a' :: T')).getD (inlineHead L.source' n' (a' :: T')) := by
    have hassign : assign? L.source' n' (a' :: T') = none := by
      cases T' <;> simp [assign?, hm', compound?, hk', isSymbol, Token.is]
    simp [head, hassign, declare_of_isName hm', keywordHead_of_isName after hm']
  obtain ⟨hvalue, hrest⟩ := hT.line_like
  have hinline : L.Agree L.Heads (inlineHead L.source (fuse n a) T)
      (inlineHead L.source' n' (a' :: T')) := by
    have hv' : n'.isValue = true := by simp [isValue, kind_of_isName hm']
    have hline : line (a' :: T') = (a' :: (line T').1, (line T').2) :=
      Tokens.lineFrom_of_significant (significant_of_kind (by simp [hk'])) 0 T'
    have hstop := hvalue.spot_stopOf ha.twin.stops_stop
    simp only [inlineHead, hv', if_true, hline, stopOf_cons]
    exact .ok (simple_like (.inline (originOf_like hn.spot_index hstop)
      (.loose hl hn hm hv ha hp ht hvalue) .nil) hrest)
  rw [hleft, hright, define_eq hn.not_call.2]
  cases T with
  | nil =>
    cases hT
    exact hinline
  | cons equals T =>
    obtain ⟨equals', U, rfl, hequals⟩ := hT.first
    simp only [define_call_eq, fuse, hstrict, hm', hp', Bool.and_self, Bool.true_and,
      ← hequals.symbol]
    split
    · next he =>
      obtain ⟨hel, hU⟩ := hequals.leaf_of_symbol he
      have hdefine : L.Agree L.Heads (defineHead L.source L.strict (fuse n a) n a equals T)
          (defineHead L.source' L.strict' (fuse n' a') n' a' equals' U) :=
        defineHead_like hn.spot_index hn (fun _ => hm) ha.twin hel hU
      rw [hstrict] at hdefine
      exact hdefine
    · exact hinline

theorem head_like (after : Bool) (h : L.Tokens (t :: T) (t' :: T')) :
    L.Agree L.Heads (head L.source L.strict after t T)
      (head L.source' L.strict' after t' T') := by
  have hplain : L.Twin t t' → L.Tokens T T' →
      (L.loose → t.isName = true → t.value.length = 1 ∧ meets 0 T = false) →
      L.Agree L.Heads (head L.source L.strict after t T)
        (head L.source' L.strict' after t' T') := by
    intro htwin hT hn
    have hassign := assign_like htwin hT hn
    have hassigned : Option.Rel (L.Agree L.Heads) ((assign? L.source t T).map Except.ok)
        ((assign? L.source' t' T').map Except.ok) := by
      generalize assign? L.source t T = x at hassign ⊢
      generalize assign? L.source' t' T' = y at hassign ⊢
      cases hassign with
      | none => exact .none
      | some hh => exact .some (.ok hh)
    have hfound := orElse_like hassigned (orElse_like (declare_like htwin hT)
      (orElse_like (define_like htwin hT hn) (keywordHead_like after htwin hT)))
    unfold head
    simp only
    generalize ((assign? L.source t T).map Except.ok <|> _) = x at hfound ⊢
    generalize ((assign? L.source' t' T').map Except.ok <|> _) = y at hfound ⊢
    cases hfound with
    | none => exact inlineHead_like htwin hT hn
    | some hh => exact hh
  cases h with
  | leaf h hn hT => exact hplain (.leaf h) hT hn
  | group hv hi hb hs ho hc hC hT =>
    exact hplain (.group hv hi hb hs ho hc hC) hT (fun _ hm => nomatch hm)
  | call hl hn hv ha hp hT => exact hplain (.call hl hn hv ha hp) hT (fun _ hm => nomatch hm)
  | loose hl hn hm hv ha hp ht hT => exact loose_head_like after hl hn hm hv ha hp ht hT

theorem head_ok_like {after : Bool} {h : Head} (hT : L.Tokens (t :: T) (t' :: T'))
    (hh : head L.source L.strict after t T = .ok h) :
    ∃ h', head L.source' L.strict' after t' T' = .ok h' ∧ L.Heads h h' := by
  have hhead := head_like after hT
  rw [hh] at hhead
  generalize hx : head L.source' L.strict' after t' T' = x at hhead
  cases hhead with
  | ok hheads => exact ⟨_, rfl, hheads⟩

theorem Statements.isCondition_eq {s s' : Statement} (h : L.Statements [s] [s']) :
    s.isCondition = s'.isCondition := by
  cases h <;> rfl

theorem Statements.append {A A' B B' : List Statement} (h : L.Statements A A')
    (hB : L.Statements B B') : L.Statements (A ++ B) (A' ++ B') := by
  induction h with
  | nil => exact hB
  | assign ho hn hm hv hx _ ih => exact .assign ho hn hm hv hx ih
  | define ho hn hm hv hx _ ih => exact .define ho hn hm hv hx ih
  | inline ho hv _ ih => exact .inline ho hv ih
  | ifThen ho hk hc hb hx _ _ ih => exact .ifThen ho hk hc hb hx ih
  | elseIf ho hk hc hb hx _ _ ih => exact .elseIf ho hk hc hb hx ih
  | otherwise ho hk hb _ _ ih => exact .otherwise ho hk hb ih
  | loop ho hk hb _ _ ih => exact .loop ho hk hb ih
  | repeatUntil ho hk hc hb hx _ _ ih => exact .repeatUntil ho hk hc hb hx ih
  | repeatTimes ho hk hc hb hx _ _ ih => exact .repeatTimes ho hk hc hb hx ih
  | repeatWith ho hk hc hn hm hb hx _ _ ih => exact .repeatWith ho hk hc hn hm hb hx ih
  | giveBack ho hk hv _ ih => exact .giveBack ho hk hv ih
  | leave ho hk _ ih => exact .leave ho hk ih
  | print ho hk hx _ ih => exact .print ho hk hx ih
  | throw ho hk hx hf _ ih => exact .throw ho hk hx hf ih

/-- What the right side reads when the left side fails does not matter. -/
theorem readsTo_lost (hl : L.lax) (after : Bool) (T' : List Token) (f : Fault) :
    ∃ y, ReadsTo L.source' L.strict' after T' y ∧ L.Agree L.Statements (.error f) y :=
  ⟨_, readFrom_readsTo L.source' L.strict' (Nat.le_refl _), .lost hl _⟩

/-- The right side reads what corresponds to what the left side reads. -/
theorem readsTo_like {after : Bool} {x : Except Fault (List Statement)}
    (h : ReadsTo L.source L.strict after T x) (hT : L.Tokens T T') :
    ∃ y, ReadsTo L.source' L.strict' after T' y ∧ L.Agree L.Statements x y := by
  induction h generalizing T' with
  | done =>
    cases hT
    exact ⟨_, .done, .ok .nil⟩
  | @skip after t rest r ht _ ih =>
    obtain ⟨u, U, rfl, hfirst⟩ := hT.first
    have hterm : u.isTerminator = true := hfirst.isTerminator_eq ▸ ht
    have hU : L.Tokens rest U := by
      simp only [isTerminator, Bool.or_eq_true] at ht
      rcases ht with hs | hs
      · exact (hfirst.leaf_of_symbol hs).2
      · exact (hfirst.leaf_of_symbol hs).2
    obtain ⟨y, hy, hagree⟩ := ih hU
    exact ⟨y, .skip hterm hy, hagree⟩
  | @stuck after t rest f ht hh =>
    obtain ⟨u, U, rfl, hfirst⟩ := hT.first
    have hterm : u.isTerminator = false := hfirst.isTerminator_eq ▸ ht
    have hhead := head_like after hT
    rw [hh] at hhead
    cases hright : head L.source' L.strict' after u U with
    | error g =>
      rw [hright] at hhead
      refine ⟨_, .stuck hterm hright, ?_⟩
      cases hhead with
      | error hf => exact .error hf
      | lost hl _ => exact .lost hl _
    | ok h' =>
      rw [hright] at hhead
      cases hhead with
      | lost hl _ => exact readsTo_lost hl after (u :: U) f
  | @inside after t rest h f ht hh _ ih =>
    obtain ⟨u, U, rfl, hfirst⟩ := hT.first
    have hterm : u.isTerminator = false := hfirst.isTerminator_eq ▸ ht
    obtain ⟨h', hhead', hheads⟩ := head_ok_like hT hh
    obtain ⟨y, hy, hagree⟩ := ih hheads.inner
    cases hagree with
    | error hf => exact ⟨_, .inside hterm hhead' hy, .error hf⟩
    | lost hl _ => exact readsTo_lost hl after (u :: U) f
  | @behind after t rest h body f ht hh _ _ ihi iho =>
    obtain ⟨u, U, rfl, hfirst⟩ := hT.first
    have hterm : u.isTerminator = false := hfirst.isTerminator_eq ▸ ht
    obtain ⟨h', hhead', hheads⟩ := head_ok_like hT hh
    obtain ⟨y, hy, hagree⟩ := ihi hheads.inner
    cases hagree with
    | @ok _ body' hbody =>
      have hstatement := hheads.finish body body' hbody
      obtain ⟨z, hz, hagree⟩ := iho hheads.rest
      rw [hstatement.isCondition_eq] at hz
      cases hagree with
      | error hf => exact ⟨_, .behind hterm hhead' hy hz, .error hf⟩
      | lost hl _ => exact readsTo_lost hl after (u :: U) f
  | @cons after t rest h body others ht hh _ _ ihi iho =>
    obtain ⟨u, U, rfl, hfirst⟩ := hT.first
    have hterm : u.isTerminator = false := hfirst.isTerminator_eq ▸ ht
    obtain ⟨h', hhead', hheads⟩ := head_ok_like hT hh
    obtain ⟨y, hy, hagree⟩ := ihi hheads.inner
    cases hagree with
    | @ok _ body' hbody =>
      have hstatement := hheads.finish body body' hbody
      obtain ⟨z, hz, hagree⟩ := iho hheads.rest
      rw [hstatement.isCondition_eq] at hz
      cases hagree with
      | ok hothers =>
        exact ⟨_, .cons hterm hhead' hy hz, .ok (hstatement.append hothers)⟩

theorem ofTokens_like (h : L.Tokens T T') :
    L.Agree L.Statements (ofTokens L.source L.strict T) (ofTokens L.source' L.strict' T') := by
  obtain ⟨y, hy, hagree⟩ := readsTo_like (ofTokens_readsTo L.source L.strict T) h
  rw [hy.ofTokens_eq]
  exact hagree

end Reading

end Likeness

end Abacus
