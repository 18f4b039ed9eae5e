import Abacus.Proofs.Rendered.Lines
import Abacus.Proofs.Rendered.Runs

/-! Statements are read alike from two renderings, as long as the blocks inside them are. -/

namespace Abacus

open Token Statement

section Reading

variable {source : String} {strict after : Bool} {t : Token} {T : List Token}

/-- What is read from a list behind a statement, or in front of all of them. -/
def Statement.reading (source : String) (strict after : Bool) (T : List Token) :
    Except Fault (List Statement) :=
  readFrom source strict (weightAll T) after T

theorem ReadsTo.reading_eq {x : Except Fault (List Statement)}
    (h : ReadsTo source strict after T x) : reading source strict after T = x :=
  (readFrom_readsTo source strict (Nat.le_refl _)).unique h

theorem reading_readsTo (source : String) (strict after : Bool) (T : List Token) :
    ReadsTo source strict after T (reading source strict after T) :=
  readFrom_readsTo source strict (Nat.le_refl _)

theorem reading_skip (ht : t.isTerminator = true) :
    reading source strict after (t :: T) = reading source strict after T :=
  ReadsTo.reading_eq (.skip ht (reading_readsTo source strict after T))

theorem reading_step (ht : t.isTerminator = false) :
    reading source strict after (t :: T) = (head source strict after t T).bind (fun h =>
      (ofTokens source strict h.inner).bind (fun body =>
        (reading source strict (h.finish body).isCondition h.rest).map (h.finish body :: ·))) := by
  refine ReadsTo.reading_eq ?_
  cases hh : head source strict after t T with
  | error f => exact .stuck ht hh
  | ok h =>
    have hinner := ofTokens_readsTo source strict h.inner
    simp only [Except.bind]
    cases hi : ofTokens source strict h.inner with
    | error f => exact .inside ht hh (hi ▸ hinner)
    | ok body =>
      have hrest := reading_readsTo source strict (h.finish body).isCondition h.rest
      dsimp only
      cases ho : reading source strict (h.finish body).isCondition h.rest with
      | error f => exact .behind ht hh (hi ▸ hinner) (ho ▸ hrest)
      | ok others => exact .cons ht hh (hi ▸ hinner) (ho ▸ hrest)

end Reading

namespace Rendering

variable {R : Rendering} {t t' : Token} {T T' : List Token}

/-- Heads of statements that do the same once their blocks do. -/
structure Heads (R : Rendering) (h h' : Head) : Prop where
  inner : R.Blocks h.inner h'.inner
  rest : R.Pairs h.rest h'.rest
  finish : ∀ {B B'}, List.Forall₂ R.Says B B' → R.Says (h.finish B) (h'.finish B')

theorem Heads.simple {s s' : Statement} (hs : R.Says s s') (hT : R.Pairs T T') :
    R.Heads (.simple s T) (.simple s' T') :=
  ⟨.inl .nil, hT, fun _ => hs⟩

section Assignments

variable {name name' op op' equals equals' : Token}

theorem stepHead_like {second second' : Token} (hn : R.Leaf name name') (hm : name.isName = true)
    (ho : R.Leaf op op') (hk : op.kind = .operator) (hT : R.Pairs T T') :
    R.Heads (stepHead R.source name op second T) (stepHead R.source' name' op' second' T') :=
  .simple (.assign hn.value_eq (runs_operated hn.met hm ho.met hk .leaf (.inr rfl))) hT

theorem compoundHead_like (hn : R.Leaf name name') (hm : name.isName = true) (ho : R.Leaf op op')
    (hk : op.kind = .operator) (hT : R.Pairs T T') :
    R.Heads (compoundHead R.source name op equals T)
      (compoundHead R.source' name' op' equals' T') :=
  .simple (.assign hn.value_eq
    (runs_operated hn.met hm ho.met hk (.parentheses rfl rfl (.inl hT.line.1.withoutNewlines))
      (.inl rfl))) hT.line.2

theorem Pairs.ends_eq (h : R.Pairs T T') :
    T.head?.all isTerminator = T'.head?.all isTerminator := by
  cases h with
  | nil => rfl
  | cons ht _ => simp only [List.head?_cons, Option.all_some, ht.isTerminator_eq]

theorem compound_like (hn : R.Leaf name name') (hm : name.isName = true) (hT : R.Pairs T T') :
    Option.Rel R.Heads (compound? R.source name T) (compound? R.source' name' T') := by
  cases hT with
  | nil => exact .none
  | @cons op op' U U' ho hU =>
    cases hU with
    | nil => exact .none
    | @cons second second' V V' hs hV =>
      by_cases hk : op.kind = .operator
      · have hop := ho.leaf_of_kind (by simp [hk]) (by simp [hk])
        have hsecond : (second.kind = .operator ∧ second.value = op.value) ↔
            (second'.kind = .operator ∧ second'.value = op.value) := by
          rw [← hs.kind_eq]
          refine and_congr_right (fun hk => ?_)
          rw [hs.value_of_kind (by simp [hk]) (by simp [hk])]
        simp only [compound?, ← hop.kind_eq, ← hop.value_eq, ← hs.isSymbol_eq, ← Pairs.ends_eq hV,
          hsecond]
        split
        · split
          · split
            · exact .some (stepHead_like hn hm hop hk hV)
            · exact .none
          · split
            · exact .some (compoundHead_like hn hm hop hk hV)
            · exact .none
        · exact .none
      · have hk' : op'.kind ≠ .operator := ho.kind_eq ▸ hk
        simp only [compound?, hk, hk', false_and, if_false]
        exact .none

theorem assignHead_like {first first' : Token} (hn : name.value = name'.value)
    (fresh constant : Bool) (hT : R.Pairs T T') :
    R.Heads (assignHead R.source first name equals fresh constant T)
      (assignHead R.source' first' name' equals' fresh constant T') :=
  .simple (.assign hn hT.line.1.runs) hT.line.2

theorem assigns_like (h : R.Pair t t') (hT : R.Pairs T T') :
    Option.Rel R.Heads (assign? R.source t T) (assign? R.source' t' T') := by
  by_cases hm : t.isName = true
  · have hn := h.leaf_of_isName hm
    have hcompound := compound_like hn hm hT
    simp only [assign?, ← h.isName_eq, hm, if_true]
    generalize compound? R.source t T = x at hcompound ⊢
    generalize compound? R.source' t' T' = y at hcompound ⊢
    cases hcompound with
    | some hh => exact .some hh
    | none =>
      cases hT with
      | nil => exact .none
      | cons he hT =>
        simp only [← he.isSymbol_eq]
        split
        · exact .some (assignHead_like hn.value_eq false false hT)
        · exact .none
  · simp only [assign?, ← h.isName_eq, hm]
    exact .none

theorem declareHead_like {keyword keyword' : Token} (constant : Bool) (hT : R.Pairs T T') :
    SameAnswer R.Heads (declareHead R.source keyword constant T)
      (declareHead R.source' keyword' constant T') := by
  cases hT with
  | nil => exact .fault _ _
  | @cons name name' U U' hn hU =>
    by_cases hm : name.isName = true
    · have hname := hn.leaf_of_isName hm
      cases hU with
      | nil =>
        simp only [declareHead, ← hn.isName_eq, hm, if_true]
        exact .fault _ _
      | cons he hU =>
        simp only [declareHead, ← hn.isName_eq, hm, if_true, ← he.isSymbol_eq]
        split
        · exact .ok (assignHead_like hname.value_eq true constant hU)
        · exact .fault _ _
    · simp only [declareHead, ← hn.isName_eq, hm]
      exact .fault _ _

theorem declares_like (h : R.Pair t t') (hT : R.Pairs T T') :
    Option.Rel (SameAnswer R.Heads) (declare? R.source t T) (declare? R.source' t' T') := by
  simp only [declare?, ← h.isWord_eq]
  split
  · exact .some (declareHead_like false hT)
  · split
    · exact .some (declareHead_like true hT)
    · exact .none

end Assignments

section Definitions

theorem defineHead_like {call call' name name' arguments arguments' equals equals' : Token}
    (hn : name.value = name'.value) (ha : R.Listed arguments.children arguments'.children)
    (hT : R.Pairs T T') :
    SameAnswer R.Heads (defineHead R.source R.strict call name arguments equals T)
      (defineHead R.source' R.strict call' name' arguments' equals' T') := by
  refine ha.parameterNames.bind ?_
  rintro names _ rfl
  exact .ok (.simple (.define hn hT.line.1.runs) hT.line.2)

theorem Leaf.not_call (h : R.Leaf t t') :
    (∀ kind value index stop n a, t ≠ .call kind value index stop n a) ∧
      ∀ kind value index stop n a, t' ≠ .call kind value index stop n a := by
  cases h
  exact ⟨fun _ _ _ _ _ _ => Token.noConfusion, fun _ _ _ _ _ _ => Token.noConfusion⟩

theorem define_name_like (h : R.Leaf t t') (hT : R.Pairs T T') :
    Option.Rel (SameAnswer R.Heads) (define? R.source R.strict t T)
      (define? R.source' R.strict t' T') := by
  rw [Likeness.define_eq h.not_call.1, Likeness.define_eq h.not_call.2]
  cases hT with
  | nil => exact .none
  | @cons a a' U U' ha hU =>
    cases hU with
    | nil => exact .none
    | cons he hU =>
      simp only [← h.isName_eq, ← ha.isParenthesized_eq, ← he.isSymbol_eq]
      split
      · next hh =>
        simp only [Bool.and_eq_true] at hh
        exact .some (defineHead_like h.value_eq (ha.listed hh.1.2 hh.1.1.1) hU)
      · exact .none

theorem define_call_like {n n' a a' : Token} (hn : R.Leaf n n')
    (ha : R.Listed a.children a'.children) (hT : R.Pairs T T') :
    Option.Rel (SameAnswer R.Heads) (define? R.source R.strict (fuse n a) T)
      (define? R.source' R.strict (fuse n' a') T') := by
  cases hT with
  | nil => exact .none
  | cons he hT =>
    simp only [fuse, define_call_eq, ← he.isSymbol_eq]
    split
    · exact .some (defineHead_like hn.value_eq ha hT)
    · exact .none

theorem defines_like (h : R.Pair t t') (hT : R.Pairs T T') :
    Option.Rel (SameAnswer R.Heads) (define? R.source R.strict t T)
      (define? R.source' R.strict t' T') := by
  have hgroup : ∀ {source v i s C o c} {T : List Token},
      define? source R.strict (.group .group v i s C o c) T = none := by
    intro source v i s C o c T
    refine Likeness.define_none (fun _ _ _ _ _ _ => Token.noConfusion) (fun hm => ?_)
    simp [isName, Token.kind] at hm
  cases h with
  | leaf h => exact define_name_like h hT
  | parentheses | braces | recast | bare =>
    rw [hgroup, hgroup]
    exact .none
  | call _ hn _ _ hC => exact define_call_like hn (.pairs hC) hT
  | bareCall _ hn _ _ hC hC' hX hW hY => exact define_call_like hn (.bare hC hC' hX hW hY) hT

end Definitions

section Blocks

variable {keyword keyword' : Token} {what : String}

theorem blockHead_like {make make' : Origin → List Statement → Statement}
    (hmake : ∀ {o o' B B'}, List.Forall₂ R.Says B B' → R.Says (make o B) (make' o' B'))
    (hT : R.Pairs T T') :
    SameAnswer R.Heads (blockHead R.source keyword what make T)
      (blockHead R.source' keyword' what make' T') := by
  cases hT with
  | nil => exact .fault _ _
  | cons hb hT =>
    simp only [blockHead, ← hb.isBlock_eq]
    split
    · next hblock => exact .ok ⟨hb.blocks hblock, hT, hmake⟩
    · exact .fault _ _

theorem conditionHead_like {make make' : Origin → List Token → List Statement → String → Statement}
    (hmake : ∀ {o o' c c' B B' x x'}, R.Runs c c' → List.Forall₂ R.Says B B' →
      R.Says (make o c B x) (make' o' c' B' x')) (hT : R.Pairs T T') :
    SameAnswer R.Heads (conditionHead R.source keyword what make T)
      (conditionHead R.source' keyword' what make' T') := by
  have hfound := hT.blockFrom 0
  unfold conditionHead
  generalize hx : blockFrom 0 T = x at hfound ⊢
  generalize blockFrom 0 T' = y at hfound ⊢
  cases hfound with
  | none => exact .fault _ _
  | @some x y hcut =>
    obtain ⟨condition, block, rest⟩ := x
    obtain ⟨condition', block', rest'⟩ := y
    obtain ⟨hcondition, hb, hrest⟩ := hcut
    obtain ⟨_, _, _, hblock⟩ := blockFrom_eq hx
    simp only [← hcondition.isEmpty_eq]
    split
    · exact .fault _ _
    · exact .ok ⟨hb.blocks hblock, hrest, hmake hcondition.runs⟩

theorem elseHead_like (after : Bool) (hT : R.Pairs T T') :
    SameAnswer R.Heads (elseHead R.source after keyword T)
      (elseHead R.source' after keyword' T') := by
  have hplain : ∀ {T T' : List Token}, R.Pairs T T' → SameAnswer R.Heads
      (blockHead R.source keyword "else" (fun o body => .otherwise o keyword body) T)
      (blockHead R.source' keyword' "else" (fun o body => .otherwise o keyword' body) T') :=
    fun hT => blockHead_like .otherwise hT
  cases after with
  | false => exact .fault _ _
  | true =>
    cases hT with
    | nil => exact hplain .nil
    | cons ht hT =>
      simp only [elseHead, if_true, ← ht.isWord_eq]
      split
      · exact conditionHead_like .elseIf hT
      · exact hplain (.cons ht hT)

theorem counterHead_like {withWord withWord' : Token} {amount amount' : List Token}
    (ha : R.Pairs amount amount') (hT : R.Pairs T T') :
    SameAnswer R.Heads (counterHead R.source keyword withWord amount T)
      (counterHead R.source' keyword' withWord' amount' T') := by
  cases hT with
  | nil => exact .fault _ _
  | @cons counter counter' U U' hc hU =>
    by_cases hm : counter.isName = true
    · have hname := hc.leaf_of_isName hm
      simp only [counterHead, ← hc.isName_eq, hm, if_true]
      exact blockHead_like (.repeatWith ha.runs hname.value_eq) hU
    · simp only [counterHead, ← hc.isName_eq, hm]
      exact .fault _ _

theorem timesHead_like (hT : R.Pairs T T') :
    SameAnswer R.Heads (timesHead R.source keyword T) (timesHead R.source' keyword' T') := by
  have hamount := hT.amountFrom
  unfold timesHead
  generalize amountFrom T = x at hamount ⊢
  generalize amountFrom T' = y at hamount ⊢
  cases hamount with
  | none => exact .fault _ _
  | @some x y hcut =>
    obtain ⟨amount, rest⟩ := x
    obtain ⟨amount', rest'⟩ := y
    obtain ⟨ha, hrest⟩ := hcut
    simp only at ha hrest
    have hplain : ∀ {T T' : List Token}, R.Pairs T T' → SameAnswer R.Heads
        (blockHead R.source keyword "the repeat loop" (fun o body =>
          .repeatTimes o keyword amount body (sourceOf R.source amount)) T)
        (blockHead R.source' keyword' "the repeat loop" (fun o body =>
          .repeatTimes o keyword' amount' body (sourceOf R.source' amount')) T') :=
      fun hT => blockHead_like (.repeatTimes ha.runs) hT
    simp only [← ha.isEmpty_eq]
    split
    · exact .fault _ _
    · cases hrest with
      | nil => exact hplain .nil
      | cons ht hrest =>
        simp only [← ht.isWord_eq]
        split
        · exact counterHead_like ha hrest
        · exact hplain (.cons ht hrest)

theorem repeatHead_like (hT : R.Pairs T T') :
    SameAnswer R.Heads (repeatHead R.source keyword T) (repeatHead R.source' keyword' T') := by
  cases hT with
  | nil => exact timesHead_like .nil
  | cons ht hT =>
    simp only [repeatHead, ← ht.isWord_eq]
    split
    · exact conditionHead_like .repeatUntil hT
    · exact timesHead_like (.cons ht hT)

end Blocks

section Reading

theorem keywordHead_like (after : Bool) (h : R.Pair t t') (hT : R.Pairs T T') :
    Option.Rel (SameAnswer R.Heads) (keywordHead? R.source after t T)
      (keywordHead? R.source' after t' T') := by
  by_cases hk : t.kind = .word
  · have hvalue := h.value_of_kind (by simp [hk]) (by simp [hk])
    have hline := hT.line
    simp only [keywordHead?, ← h.kind_eq, hk, if_true, ← hvalue]
    split
    · exact .some (conditionHead_like .ifThen hT)
    · exact .some (elseHead_like after hT)
    · exact .some (repeatHead_like hT)
    · exact .some (blockHead_like .loop hT)
    · exact .some (.ok (.simple (.giveBack hline.1.isEmpty_eq hline.1.runs) hline.2))
    · exact .some (.ok (.simple .leave hT))
    · exact .some (.ok (.simple .print hline.2))
    · exact .some (.ok (.simple .throw hline.2))
    · exact .none
  · simp only [keywordHead?, ← h.kind_eq, hk, if_false]
    exact .none

theorem inlineHead_like (h : R.Pair t t') (hT : R.Pairs T T') :
    SameAnswer R.Heads (inlineHead R.source t T) (inlineHead R.source' t' T') := by
  simp only [inlineHead, ← h.isValue_eq]
  split
  · exact .ok (.simple (.inline (Pairs.runs (.cons h hT.line.1))) hT.line.2)
  · exact .fault _ _

theorem head_like (after : Bool) (h : R.Pair t t') (hT : R.Pairs T T') :
    SameAnswer R.Heads (head R.source R.strict after t T) (head R.source' R.strict after t' T') := by
  have hassign : Option.Rel (SameAnswer R.Heads) ((assign? R.source t T).map Except.ok)
      ((assign? R.source' t' T').map Except.ok) :=
    option_map (assigns_like h hT) (fun _ _ hh => .ok hh)
  have hfound := Likeness.orElse_like hassign (Likeness.orElse_like (declares_like h hT)
    (Likeness.orElse_like (defines_like h hT) (keywordHead_like after h hT)))
  unfold head
  simp only
  generalize ((assign? R.source t T).map Except.ok <|> _) = x at hfound ⊢
  generalize ((assign? R.source' t' T').map Except.ok <|> _) = y at hfound ⊢
  cases hfound with
  | none => exact inlineHead_like h hT
  | some hh => exact hh

/-- Both lists are read, and what is read does the same. -/
abbrev SameReading (R : Rendering) (C C' : List Token) : Prop :=
  SameAnswer (List.Forall₂ R.Says) (ofTokens R.source R.strict C) (ofTokens R.source' R.strict C')

/-- Lists that correspond are read alike if the smaller blocks that are cast in another way are. -/
theorem reading_like {n : Nat} (after : Bool) (hT : R.Pairs T T') (hn : weightAll T ≤ n)
    (hrecast : ∀ {C C'}, weightAll C < n → R.recast C C' → R.SameReading C C') :
    SameAnswer (List.Forall₂ R.Says) (reading R.source R.strict after T)
      (reading R.source' R.strict after T') := by
  generalize hw : weightAll T = w
  induction w using Nat.strong_induction_on generalizing T T' after with
  | _ w ih =>
    subst hw
    cases hT with
    | nil => exact .ok .nil
    | @cons t t' T T' ht hT =>
      have hpos := weight_pos t
      simp only [weightAll] at hn
      cases hterm : t.isTerminator with
      | true =>
        rw [reading_skip hterm, reading_skip (ht.isTerminator_eq ▸ hterm)]
        exact ih _ (by simp only [weightAll]; omega) after hT (by omega) rfl
      | false =>
        rw [reading_step hterm, reading_step (ht.isTerminator_eq ▸ hterm)]
        have hhead := head_like after ht hT
        cases hh : head R.source R.strict after t T with
        | error f =>
          rw [hh] at hhead
          generalize head R.source' R.strict after t' T' = y at hhead ⊢
          cases hhead
          exact .fault _ _
        | ok h =>
          obtain ⟨used, heq, hused⟩ := head_takes hh
          have hinner := hused.weight_inner
          have htotal : weight t + weightAll T = weightAll used + weightAll h.rest := by
            rw [← weightAll_append, ← heq, weightAll]
          rw [hh] at hhead
          generalize head R.source' R.strict after t' T' = y at hhead ⊢
          cases hhead with
          | @ok _ h' hheads =>
            have hbody : R.SameReading h.inner h'.inner := by
              rcases hheads.inner with hC | hC
              · exact ih _ (by simp only [weightAll]; omega) false hC (by omega) rfl
              · exact hrecast (by omega) hC
            change SameAnswer _ (Except.bind (ofTokens R.source R.strict h.inner) _)
              (Except.bind (ofTokens R.source' R.strict h'.inner) _)
            refine hbody.bind (fun B B' hB => ?_)
            have hstatement := hheads.finish hB
            rw [← hstatement.isCondition_eq]
            have hrest := ih (weightAll h.rest) (by simp only [weightAll]; omega)
              (h.finish B).isCondition hheads.rest (by omega) rfl
            exact hrest.map (fun _ _ hothers => .cons hstatement hothers)

theorem Pairs.sameReading (h : R.Pairs T T')
    (hrecast : ∀ {C C'}, weightAll C < weightAll T → R.recast C C' → R.SameReading C C') :
    R.SameReading T T' :=
  reading_like false h (Nat.le_refl _) hrecast

end Reading

end Rendering

end Abacus
