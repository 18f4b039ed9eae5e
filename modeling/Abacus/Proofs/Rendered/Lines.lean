import Abacus.Expression.Runs
import Abacus.Proofs.Alike.Heads
import Abacus.Proofs.Rendered.Basic

/-! Lists of two renderings are cut alike: into lines, blocks, amounts, arguments and parameters. -/

namespace Abacus.Rendering

open Token Statement

variable {R : Rendering} {t t' : Token} {T T' : List Token}

/-- A block with what stands before and behind it. -/
structure Cut (R : Rendering) (x x' : List Token × Token × List Token) : Prop where
  before : R.Pairs x.1 x'.1
  block : R.Pair x.2.1 x'.2.1
  behind : R.Pairs x.2.2 x'.2.2

theorem option_map {γ δ ε ζ : Type} {S : γ → δ → Prop} {U : ε → ζ → Prop} {x : Option γ}
    {y : Option δ} {f : γ → ε} {g : δ → ζ} (h : Option.Rel S x y)
    (hf : ∀ v w, S v w → U (f v) (g w)) : Option.Rel U (x.map f) (y.map g) := by
  cases h with
  | none => exact .none
  | some h => exact .some (hf _ _ h)

namespace Pairs

theorem lineFrom (h : R.Pairs T T') (p : Nat) :
    R.Pairs (lineFrom p T).1 (Token.lineFrom p T').1 ∧
      R.Pairs (Token.lineFrom p T).2 (Token.lineFrom p T').2 := by
  induction h generalizing p with
  | nil => exact ⟨.nil, .nil⟩
  | cons ht hT ih =>
    simp only [Token.lineFrom, ← ht.isTerminator_eq, ← ht.isSymbol_eq]
    split
    · cases p with
      | zero => exact ⟨.nil, .cons ht hT⟩
      | succ p => exact ih p
    · split
      · exact ih (p + 1)
      · exact ⟨.cons ht (ih 0).1, (ih 0).2⟩

theorem line (h : R.Pairs T T') :
    R.Pairs (line T).1 (Token.line T').1 ∧ R.Pairs (Token.line T).2 (Token.line T').2 :=
  h.lineFrom 0

theorem blockFrom (h : R.Pairs T T') (p : Nat) :
    Option.Rel R.Cut (blockFrom p T) (Token.blockFrom p T') := by
  induction h generalizing p with
  | nil => exact .none
  | cons ht hT ih =>
    simp only [Token.blockFrom, ← ht.isBlock_eq, ← ht.isTerminator_eq, ← ht.isSymbol_eq]
    split
    · exact .some ⟨.nil, ht, hT⟩
    · split
      · cases p with
        | zero => exact .none
        | succ p => exact ih p
      · split
        · exact ih (p + 1)
        · exact option_map (ih 0) (fun x x' hcut => ⟨.cons ht hcut.before, hcut.block, hcut.behind⟩)

theorem amountFrom (h : R.Pairs T T') :
    Option.Rel (fun x x' => R.Pairs x.1 x'.1 ∧ R.Pairs x.2 x'.2) (amountFrom T)
      (Token.amountFrom T') := by
  induction h with
  | nil => exact .none
  | cons ht hT ih =>
    simp only [Token.amountFrom, ← ht.isBlock_eq, ← ht.isTerminator_eq, ← ht.isWord_eq]
    split
    · exact .none
    · split
      · exact .some ⟨.nil, hT⟩
      · exact option_map ih (fun x x' hcut => ⟨.cons ht hcut.1, hcut.2⟩)

theorem splitFrom (h : R.Pairs T T') (closer closer' : Int) {C C' : List Token}
    (hC : R.Pairs C C') :
    SameAnswer (List.Forall₂ R.Pairs) (splitFrom closer C T) (Token.splitFrom closer' C' T') := by
  induction h generalizing C C' with
  | nil =>
    simp only [Token.splitFrom, ← hC.isEmpty_eq]
    split
    · exact .fault _ _
    · exact .ok (.cons (List.rel_reverse hC) .nil)
  | cons ht _ ih =>
    simp only [Token.splitFrom, ← ht.isSymbol_eq, ← hC.isEmpty_eq]
    split
    · split
      · exact .fault _ _
      · exact (ih .nil).map (fun _ _ hruns => .cons (List.rel_reverse hC) hruns)
    · exact ih (.cons ht hC)

theorem splitArguments (h : R.Pairs T T') (closer closer' : Int) :
    SameAnswer (List.Forall₂ R.Pairs) (splitArguments closer T)
      (Token.splitArguments closer' T') := by
  have hfilter := h.withoutNewlines
  unfold Token.splitArguments
  generalize T.filter (fun t => !t.isNewline) = S at hfilter ⊢
  generalize T'.filter (fun t => !t.isNewline) = S' at hfilter ⊢
  cases hfilter with
  | nil => exact .ok .nil
  | cons ht hT => exact splitFrom (.cons ht hT) closer closer' .nil

end Pairs

section Arguments

theorem joined_ne_nil {runs : List (List Token)} {run : List Token}
    (h : CommaJoined runs T) (hr : run ∈ runs) (hne : run ≠ []) : T ≠ [] := by
  cases h with
  | last _ => exact List.mem_singleton.mp hr ▸ hne
  | cons _ _ _ => simp

theorem splitArguments_of_joined {runs : List (List Token)} {run : List Token}
    (h : CommaJoined runs (unbroken T)) (hr : run ∈ runs) (hne : run ≠ []) (closer : Int) :
    splitArguments closer T = splitFrom closer [] (unbroken T) := by
  unfold splitArguments
  split
  · next hnil => exact absurd hnil (joined_ne_nil h hr hne)
  · rfl

theorem Bare.ne_nil (h : R.Bare T T') : T ≠ [] ∧ T' ≠ [] := by
  cases h
  simp

theorem mem_nil_iff {X X' : List (List Token)} (h : List.Forall₂ R.Pairs X X') :
    [] ∈ X ↔ [] ∈ X' := by
  induction h with
  | nil => rfl
  | cons hrun _ ih =>
    have hfirst : ∀ {T T' : List Token}, R.Pairs T T' → ([] = T ↔ [] = T') := by
      intro T T' hT
      cases hT <;> simp
    simp only [List.mem_cons, hfirst hrun, ih]

theorem Listed.splitArguments (h : R.Listed T T') (closer closer' : Int) :
    SameAnswer (List.Forall₂ R.Spoken) (splitArguments closer T)
      (Token.splitArguments closer' T') := by
  cases h with
  | pairs h =>
    have hsplit := h.splitArguments closer closer'
    generalize Token.splitArguments closer T = x at hsplit ⊢
    generalize Token.splitArguments closer' T' = y at hsplit ⊢
    cases hsplit with
    | ok hruns => exact .ok (hruns.imp (fun _ _ hrun => .inl hrun))
    | error _ => exact .fault _ _
  | @bare W W' X X' Y Y' hC hC' hX hW hY =>
    obtain ⟨hne, hne'⟩ := hW.ne_nil
    rw [splitArguments_of_joined hC (List.mem_append_right X List.mem_cons_self) hne,
      splitArguments_of_joined hC' (List.mem_append_right X' List.mem_cons_self) hne']
    have hempty : [] ∈ X ++ W :: Y ↔ [] ∈ X' ++ W' :: Y' := by
      simp only [List.mem_append, List.mem_cons, mem_nil_iff hX, mem_nil_iff hY, hne.symm, hne'.symm]
    by_cases hm : [] ∈ X ++ W :: Y
    · obtain ⟨f, hf⟩ := (splitFrom_fails closer).mpr ⟨_, hC, hm⟩
      obtain ⟨g, hg⟩ := (splitFrom_fails closer').mpr ⟨_, hC', hempty.mp hm⟩
      rw [hf, hg]
      exact .fault _ _
    · rw [(splitFrom_eq_ok closer).mpr ⟨hC, hm⟩,
        (splitFrom_eq_ok closer').mpr ⟨hC', fun hh => hm (hempty.mpr hh)⟩]
      exact .ok (List.rel_append (hX.imp fun _ _ hrun => .inl hrun)
        (.cons (.inr hW) (hY.imp fun _ _ hrun => .inl hrun)))

end Arguments

section Parameters

theorem parameterName_like (h : R.Pair t t') :
    SameAnswer Eq (parameterName R.strict t) (parameterName R.strict t') := by
  by_cases hm : t.isName = true
  · have hname := h.leaf_of_isName hm
    simp only [parameterName, hm, ← h.isName_eq, ← hname.value_eq, if_true]
    split
    · exact .fault _ _
    · exact .ok rfl
  · simp only [parameterName, hm, ← h.isName_eq]
    exact .fault _ _

theorem Pairs.parameterNames : ∀ {T T' : List Token}, R.Pairs T T' →
    SameAnswer Eq (parameterNames R.strict T) (Statement.parameterNames R.strict T')
  | _, _, .nil => .ok rfl
  | _, _, .cons ht hT => by
    rw [Likeness.parameterNames_cons, Likeness.parameterNames_cons]
    refine (parameterName_like ht).bind ?_
    rintro name _ rfl
    cases hT with
    | nil => exact .ok rfl
    | cons hc hrest =>
      simp only [← hc.comma_iff]
      split
      · cases hrest with
        | nil => exact .fault _ _
        | cons hu hrest =>
          exact (Pairs.parameterNames (.cons hu hrest)).map (fun _ _ hh => by rw [hh])
      · exact .fault _ _

theorem startsBlock_keyword (h : Eval.startsBlock t = true) :
    t.isName = false ∧ t.value ≠ "," ∧ t.isTerminator = false ∧ t.isSymbol "," = false := by
  have hword : t.kind = .word ∧ t.value ∈ ["if", "repeat", "loop"] := by
    simp only [Eval.startsBlock, Token.is, Bool.or_eq_true, Bool.and_eq_true, beq_iff_eq] at h
    rcases h with (⟨hk, hv⟩ | ⟨hk, hv⟩) | ⟨hk, hv⟩ <;> exact ⟨hk, by simp [hv]⟩
  obtain ⟨hk, hv⟩ := hword
  simp only [List.mem_cons, List.not_mem_nil, or_false] at hv
  rcases hv with hv | hv | hv <;>
    simp [isName, isTerminator, isSymbol, Token.is, hk, hv, keywords]

/-- The word of a block is neither a parameter nor a comma between two of them. -/
theorem parameterNames_fails (strict : Bool) : ∀ {T : List Token} {t : Token}, t ∈ T →
    Eval.startsBlock t = true → ∃ f, parameterNames strict T = .error f
  | u :: T, t, hm, ht => by
    obtain ⟨hname, hcomma, _⟩ := startsBlock_keyword ht
    rw [Likeness.parameterNames_cons]
    cases hu : parameterName strict u with
    | error f => exact ⟨f, rfl⟩
    | ok name =>
      have hbehind : t ∈ T := by
        refine (List.mem_cons.mp hm).resolve_left ?_
        rintro rfl
        simp [parameterName, hname] at hu
      cases T with
      | nil => cases hbehind
      | cons comma rest =>
        simp only [Except.bind]
        split
        · next hc =>
          have hrest : t ∈ rest := (List.mem_cons.mp hbehind).resolve_left (fun hh => hcomma (hh ▸ hc))
          obtain ⟨f, hf⟩ := parameterNames_fails strict hrest ht
          cases rest with
          | nil => cases hrest
          | cons => exact ⟨f, by simp only [hf, Except.map]⟩
        · exact ⟨_, rfl⟩

theorem Bare.starts (h : R.Bare T T') :
    (∃ t ∈ T, Eval.startsBlock t = true) ∧ ∃ t ∈ T', Eval.startsBlock t = true := by
  cases h with
  | intro ht ht' _ _ _ => exact ⟨⟨_, List.mem_cons_self, ht⟩, _, List.mem_cons_self, ht'⟩

theorem mem_of_joined {runs : List (List Token)} {run : List Token} (h : CommaJoined runs T)
    (hr : run ∈ runs) (ht : t ∈ run) : t ∈ T := by
  induction h with
  | last _ => exact List.mem_singleton.mp hr ▸ ht
  | cons _ _ _ ih =>
    rcases List.mem_cons.mp hr with rfl | hr
    · exact List.mem_append_left _ ht
    · exact List.mem_append_right _ (List.mem_cons_of_mem _ (ih hr))

theorem Listed.parameterNames (h : R.Listed T T') :
    SameAnswer Eq (parameterNames R.strict (T.filter (fun t => !t.isTerminator)))
      (Statement.parameterNames R.strict (T'.filter (fun t => !t.isTerminator))) := by
  cases h with
  | pairs h => exact h.withoutTerminators.parameterNames
  | @bare W W' X X' Y Y' hC hC' _ hW _ =>
    have hfails : ∀ {T W : List Token} {X Y : List (List Token)},
        CommaJoined (X ++ W :: Y) (unbroken T) → (∃ t ∈ W, Eval.startsBlock t = true) →
        ∃ f, Statement.parameterNames R.strict (T.filter (fun t => !t.isTerminator)) = .error f := by
      rintro T W X Y hC ⟨t, ht, hstarts⟩
      have hm := mem_of_joined hC (List.mem_append_right X List.mem_cons_self) ht
      refine parameterNames_fails _ (List.mem_filter.mpr ⟨List.mem_of_mem_filter hm, ?_⟩) hstarts
      simp [(startsBlock_keyword hstarts).2.2.1]
    obtain ⟨f, hf⟩ := hfails hC hW.starts.1
    obtain ⟨g, hg⟩ := hfails hC' hW.starts.2
    rw [hf, hg]
    exact .fault _ _

end Parameters

end Abacus.Rendering
