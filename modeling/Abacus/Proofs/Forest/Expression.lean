import Abacus.Proofs.Forest.Statement

/-! Expressions over a forest: what is evaluated inside a run of tokens is again a run that may be
evaluated, or a block that its place tells. -/

namespace Abacus

open Token

variable {F : List Token}

theorem splitFrom_between {closer : Int} {current T : List Token} {runs : List (List Token)}
    (h : splitFrom closer current T = .ok runs) {run : List Token} (hr : run ∈ runs) :
    ∃ P S, current.reverse ++ T = P ++ run ++ S ∧
      ∀ x, P.getLast? = some x → x.isSymbol "," = true := by
  induction T generalizing current runs with
  | nil =>
    simp only [splitFrom] at h
    split at h
    · cases h
    · cases h
      rw [List.mem_singleton.mp hr]
      exact ⟨[], [], by simp, by simp⟩
  | cons t rest ih =>
    simp only [splitFrom] at h
    split at h
    · next hcomma =>
      split at h
      · cases h
      · cases hs : splitFrom closer [] rest with
        | error f =>
          rw [hs] at h
          cases h
        | ok others =>
          rw [hs] at h
          cases h
          rcases List.mem_cons.mp hr with rfl | hr
          · exact ⟨[], t :: rest, by simp, by simp⟩
          · obtain ⟨P, S, hsplit, hlast⟩ := ih hs hr
            refine ⟨current.reverse ++ [t] ++ P, S, ?_, ?_⟩
            · simpa using hsplit
            · intro x hx
              rcases P.eq_nil_or_concat with rfl | ⟨init, c, rfl⟩
              · have hxt : x = t := by simpa [eq_comm] using hx
                exact hxt ▸ hcomma
              · rw [List.concat_eq_append, ← List.append_assoc, List.getLast?_append] at hx
                exact hlast x (by simpa using hx)
    · obtain ⟨P, S, hsplit, hlast⟩ := ih h hr
      exact ⟨P, S, by simpa using hsplit, hlast⟩

theorem splitArguments_between {closer : Int} {L : List Token} {runs : List (List Token)}
    (h : splitArguments closer L = .ok runs) {run : List Token} (hr : run ∈ runs) :
    ∃ P S, L.filter (fun t => !t.isNewline) = P ++ run ++ S ∧
      ∀ x, P.getLast? = some x → x.isSymbol "," = true := by
  unfold splitArguments at h
  split at h
  · cases h
    cases hr
  · simpa using splitFrom_between h hr

theorem blockRun_between (hF : Ordered F) {L P S rest : List Token} {first : Token}
    (hL : Level F L) (h : L.filter (fun t => !t.isNewline) = P ++ (first :: rest) ++ S)
    (hP : ∀ x, P.getLast? = some x → x.isSymbol "," = true)
    (hs : Eval.startsBlock first = true) : BlockRun F (first :: rest) := by
  obtain ⟨he, hshape⟩ := between_shape (hL.ordered hF) h hP
  exact ⟨L, first, rest, hL, rfl, hs, he, hshape⟩

theorem plain_of_level (hF : Ordered F) {L : List Token} (hL : Level F L) : Plain F L where
  tokens t ht := ⟨L, hL, ht⟩
  block first rest hfirst hs :=
    blockRun_between (P := []) (S := []) hF hL (by simpa using hfirst) (by simp) hs

theorem plain_of_argument (hF : Ordered F) {L : List Token} (hL : Level F L) {closer : Int}
    {runs : List (List Token)} (h : splitArguments closer L = .ok runs) {run : List Token}
    (hr : run ∈ runs) : Plain F run := by
  obtain ⟨P, S, hsplit, hlast⟩ := splitArguments_between h hr
  have hmem : ∀ t ∈ run, t ∈ L.filter (fun t => !t.isNewline) := by
    intro t ht
    rw [hsplit]
    exact List.mem_append_left _ (List.mem_append_right _ ht)
  constructor
  · intro t ht
    exact ⟨L, hL, (List.mem_filter.mp (hmem t ht)).1⟩
  · intro first rest hfirst hs
    have hself : run.filter (fun t => !t.isNewline) = run :=
      List.filter_eq_self.mpr (fun t ht => (List.mem_filter.mp (hmem t ht)).2)
    rw [hself] at hfirst
    rw [hfirst] at hsplit
    exact blockRun_between hF hL hsplit hlast hs

theorem fit_of_inForest (hF : Ordered F) {t : Token} (ht : InForest F t) :
    t.PartsFit (Fits F) (Keyed F) := by
  obtain ⟨L, hL, hm⟩ := ht
  have hcontents := hL.contents hm
  have hp := (hL.ordered hF).placed t hm
  cases t with
  | leaf kind value index stop => trivial
  | group kind value index stop children opener closer =>
    simp only [Token.PartsFit]
    split
    · exact .plain (plain_of_level hF hcontents)
    · refine Keyed.braces (t := .group kind value index stop children opener closer) ⟨L, hL, hm⟩ ?_
      cases hp
      rfl
  | call kind value index stop name arguments =>
    intro runs hruns run hrun
    exact .plain (plain_of_argument hF hcontents hruns hrun)

theorem fit_of_fuse (hF : Ordered F) (name : Token) {g : Token} (hg : InForest F g)
    (hp : g.isParenthesized = true) : (fuse name g).PartsFit (Fits F) (Keyed F) := by
  obtain ⟨L, hL, hm⟩ := hg
  have hinside : Level F g.children := contents_of_inside hp ▸ hL.contents hm
  intro runs hruns run hrun
  exact .plain (plain_of_argument hF hinside hruns hrun)

theorem leaf_of_mem_letters {index : Int} {cs : List Char} {t : Token}
    (h : t ∈ letters index cs) : ∃ value index stop, t = .leaf .word value index stop := by
  induction cs generalizing index with
  | nil => cases h
  | cons c cs ih =>
    rcases List.mem_cons.mp h with rfl | h
    · exact ⟨_, _, _, rfl⟩
    · exact ih h

theorem mem_splitLong {isFunction : String → Bool} {T : List Token} {t : Token}
    (h : t ∈ splitLong isFunction T) :
    t ∈ T ∨ ∃ value index stop, t = .leaf .word value index stop := by
  induction T with
  | nil => cases h
  | cons u rest ih =>
    have hrest : t ∈ splitLong isFunction rest →
        t ∈ u :: rest ∨ ∃ value index stop, t = .leaf .word value index stop :=
      fun hm => (ih hm).imp_left (List.mem_cons_of_mem _)
    simp only [splitLong] at h
    split at h
    · rcases List.mem_cons.mp h with rfl | h
      · exact .inl List.mem_cons_self
      · exact hrest h
    · split at h
      · rcases List.mem_cons.mp h with rfl | h
        · exact .inl List.mem_cons_self
        · exact hrest h
      · rcases List.mem_append.mp h with h | h
        · exact .inr (leaf_of_mem_letters h)
        · exact hrest h

theorem mem_fuseOnto {isFunction : String → Bool} {T before : List Token} {t : Token}
    (h : t ∈ T.foldl (fuseOnto isFunction) before) :
    t ∈ before ∨ t ∈ T ∨ ∃ name g, t = fuse name g ∧ g ∈ T ∧ g.isParenthesized = true := by
  induction T generalizing before with
  | nil => exact .inl h
  | cons u rest ih =>
    rcases ih h with hm | hm | ⟨name, g, rfl, hg, hp⟩
    · -- a token that was added at once is the next one, alone or in a call
      unfold fuseOnto at hm
      split at hm
      · next name others =>
        split at hm
        · next hc =>
          simp only [Bool.and_eq_true] at hc
          rcases List.mem_cons.mp hm with rfl | hm
          · exact .inr (.inr ⟨name, u, rfl, List.mem_cons_self, hc.1.1.1⟩)
          · exact .inl (List.mem_cons_of_mem _ hm)
        · rcases List.mem_cons.mp hm with rfl | hm
          · exact .inr (.inl List.mem_cons_self)
          · exact .inl hm
      · rw [List.mem_singleton.mp hm]
        exact .inr (.inl List.mem_cons_self)
    · exact .inr (.inl (List.mem_cons_of_mem _ hm))
    · exact .inr (.inr ⟨name, g, rfl, List.mem_cons_of_mem _ hg, hp⟩)

theorem foldl_fuseOnto {isFunction : String → Bool} {T before : List Token}
    (h : ∀ t ∈ T, t.isParenthesized = false) :
    T.foldl (fuseOnto isFunction) before = T.reverse ++ before := by
  induction T generalizing before with
  | nil => rfl
  | cons t rest ih =>
    obtain ⟨ht, hrest⟩ := List.forall_mem_cons.mp h
    have hadd : fuseOnto isFunction before t = t :: before := by
      unfold fuseOnto
      split
      · simp [ht]
      · rfl
    rw [List.foldl_cons, hadd, ih hrest]
    simp

theorem mem_splitWords_compound {isFunction : String → Bool} {name op last t : Token}
    (hname : name.isParenthesized = false) (hop : op.isParenthesized = false)
    (ho : op.kind ≠ .word) (hl : last.kind ≠ .word)
    (h : t ∈ splitWords isFunction [name, op, last]) :
    t = name ∨ t = op ∨ t = last ∨ ∃ value index stop, t = .leaf .word value index stop := by
  -- the words before the operator stay words, and a group behind an operator stays a group
  have hsplit : ∃ X, splitLong isFunction [name, op, last] = X ++ [op] ++ [last] ∧
      ∀ u ∈ X, u = name ∨ ∃ value index stop, u = .leaf .word value index stop := by
    simp only [splitLong, ne_eq, ho, hl, not_false_eq_true, true_or, if_true]
    split
    · exact ⟨[name], rfl, by simp⟩
    · split
      · exact ⟨[name], rfl, by simp⟩
      · refine ⟨letters name.index name.value.toList, by simp, fun u hu => ?_⟩
        exact .inr (leaf_of_mem_letters hu)
  obtain ⟨X, hX, hwords⟩ := hsplit
  have hplain : ∀ u ∈ X ++ [op], u.isParenthesized = false := by
    intro u hu
    rcases List.mem_append.mp hu with hu | hu
    · rcases hwords u hu with rfl | ⟨_, _, _, rfl⟩
      · exact hname
      · rfl
    · rw [List.mem_singleton.mp hu]
      exact hop
  have hfold : splitWords isFunction [name, op, last] = X ++ [op] ++ [last] := by
    have hkind : (op.kind == .word) = false := by simpa using ho
    rw [splitWords, hX, List.foldl_append, foldl_fuseOnto hplain]
    simp [fuseOnto, hkind]
  rw [hfold] at h
  simp only [List.mem_append, List.mem_singleton] at h
  rcases h with (h | h) | h
  · rcases hwords t h with h | h
    · exact .inl h
    · exact .inr (.inr (.inr h))
  · exact .inr (.inl h)
  · exact .inr (.inr (.inl h))

theorem InForest.placed {t : Token} (h : InForest F t) (hF : Ordered F) : t.Placed := by
  obtain ⟨L, hL, hm⟩ := h
  exact (hL.ordered hF).placed t hm

theorem not_parenthesized {t : Token} (h : InForest F t) (hF : Ordered F)
    (hk : t.kind = .word ∨ t.kind = .operator) : t.isParenthesized = false := by
  have hne : t.kind ≠ .group ∧ t.kind ≠ .call := by
    rcases hk with hk | hk <;> simp [hk]
  obtain ⟨_, _, _, _, rfl⟩ := (h.placed hF).eq_leaf hne.1 hne.2
  rfl

theorem not_startsBlock_of_isName {t : Token} (h : t.isName = true) :
    Eval.startsBlock t = false := by
  simp only [isName, Bool.and_eq_true, Bool.not_eq_true'] at h
  by_contra hs
  obtain ⟨_, hvalue⟩ := startsBlock_cases (by simpa using hs)
  rcases hvalue with hvalue | hvalue | hvalue <;> simp [keywords, hvalue] at h

theorem filter_compound {name op last : Token} (hn : name.isName = true)
    (ho : op.kind = .operator) (hl : last.kind ≠ .symbol) :
    [name, op, last].filter (fun t => !t.isNewline) = [name, op, last] := by
  have hword := kind_of_isName hn
  simp [isNewline, isSymbol, is, hword, ho, hl]

theorem Fits.block {R rest : List Token} {first : Token} (h : Fits F R)
    (hf : R.filter (fun t => !t.isNewline) = first :: rest)
    (hs : Eval.startsBlock first = true) :
    Keyed F (first.index, stopOf (first :: rest) first.stop) (first :: rest) := by
  have hname : ∀ {name : Token}, name.isName = true → first = name → False := by
    rintro _ hn rfl
    simp [not_startsBlock_of_isName hn] at hs
  cases h with
  | plain h => exact .run (h.block first rest hf hs)
  | step _ hn _ ho =>
    rw [filter_compound hn ho (by simp [kind])] at hf
    exact (hname hn (List.cons.inj hf).1.symm).elim
  | compound _ hn _ ho _ _ =>
    rw [filter_compound hn ho (by simp [kind])] at hf
    exact (hname hn (List.cons.inj hf).1.symm).elim

/-- The words of a compound assignment are those that it was put together from, or letters. -/
theorem mem_words_compound (hF : Ordered F) {name op last t : Token} (hname : InForest F name)
    (hn : name.isName = true) (hop : InForest F op) (ho : op.kind = .operator)
    (hl : last.kind ≠ .word) {strict : Bool} {isFunction : String → Bool}
    (ht : t ∈ if strict then splitWords isFunction [name, op, last] else [name, op, last]) :
    t = name ∨ t = op ∨ t = last ∨ ∃ value index stop, t = .leaf .word value index stop := by
  split at ht
  · exact mem_splitWords_compound (not_parenthesized hname hF (.inl (kind_of_isName hn)))
      (not_parenthesized hop hF (.inr ho)) (by simp [ho]) hl ht
  · simp only [List.mem_cons, List.not_mem_nil, or_false] at ht
    tauto

theorem fit_of_compound (hF : Ordered F) {name op last t : Token} (hname : InForest F name)
    (hn : name.isName = true) (hop : InForest F op) (ho : op.kind = .operator)
    (hl : last.kind ≠ .word) (hlast : last.PartsFit (Fits F) (Keyed F)) (strict : Bool)
    (isFunction : String → Bool)
    (ht : t ∈ if strict then splitWords isFunction [name, op, last] else [name, op, last]) :
    t.PartsFit (Fits F) (Keyed F) := by
  rcases mem_words_compound hF hname hn hop ho hl ht with rfl | rfl | rfl | ⟨_, _, _, rfl⟩
  · exact fit_of_inForest hF hname
  · exact fit_of_inForest hF hop
  · exact hlast
  · trivial

theorem Fits.tokens (hF : Ordered F) {R rest : List Token} {first : Token} (h : Fits F R)
    (hf : R.filter (fun t => !t.isNewline) = first :: rest) (strict : Bool)
    (isFunction : String → Bool) :
    ∀ t ∈ if strict then splitWords isFunction (first :: rest) else first :: rest,
      t.PartsFit (Fits F) (Keyed F) := by
  intro t ht
  cases h with
  | plain h =>
    have hforest : ∀ u ∈ first :: rest, InForest F u := by
      intro u hu
      rw [← hf] at hu
      exact h.tokens u (List.mem_filter.mp hu).1
    split at ht
    · rcases mem_fuseOnto (List.mem_reverse.mp ht) with hm | hm | ⟨name, g, rfl, hg, hp⟩
      · cases hm
      · rcases mem_splitLong hm with hm | ⟨_, _, _, rfl⟩
        · exact fit_of_inForest hF (hforest t hm)
        · trivial
      · rcases mem_splitLong hg with hm | ⟨_, _, _, rfl⟩
        · exact fit_of_fuse hF name (hforest g hm) hp
        · cases hp
    · exact fit_of_inForest hF (hforest t ht)
  | step hname hn hop ho =>
    rw [filter_compound hn ho (by simp [kind])] at hf
    rw [← hf] at ht
    refine fit_of_compound hF hname hn hop ho (by simp [kind]) ?_ strict isFunction ht
    trivial
  | compound hname hn hop ho hp hc =>
    rw [filter_compound hn ho (by simp [kind])] at hf
    rw [← hf] at ht
    refine fit_of_compound hF hname hn hop ho (by simp [kind]) ?_ strict isFunction ht
    simp only [Token.PartsFit, if_pos hp]
    exact .plain hc

end Abacus
