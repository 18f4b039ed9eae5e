import Abacus.Proofs.Reading.Kinds
import Abacus.Proofs.Strict.Forest

/-! Sources without loops and definitions. Whatever is read from the tokens of such a source, at any
depth, is neither a loop without a count nor the definition of a function. -/

namespace Abacus

open Token Statement

/-- No word of a loop without a count is in the source, and no closing parenthesis has a sign for
equality right behind it. -/
structure LoopFree (source : String) : Prop where
  words : ∀ t ∈ scan source, t.is .word "loop" = false ∧ t.is .word "until" = false
  closings : ((scan source).filter isSignificant).IsChain
    (fun s e => ¬ (s.isSymbol ")" = true ∧ e.isSymbol "=" = true))

instance (source : String) : Decidable (LoopFree source) :=
  have : DecidableRel (fun s e : Token => ¬ (s.isSymbol ")" = true ∧ e.isSymbol "=" = true)) :=
    fun s e => inferInstanceAs (Decidable (¬ (s.isSymbol ")" = true ∧ e.isSymbol "=" = true)))
  decidable_of_iff
    ((∀ t ∈ scan source, t.is .word "loop" = false ∧ t.is .word "until" = false) ∧
      ((scan source).filter isSignificant).IsChain
        (fun s e => ¬ (s.isSymbol ")" = true ∧ e.isSymbol "=" = true)))
    ⟨fun h => ⟨h.1, h.2⟩, fun h => ⟨h.words, h.closings⟩⟩

/-- How often the block of such a statement runs is known beforehand, and it binds no function. -/
def Statement.Kind.Bounded : Statement.Kind → Prop
  | .loop | .repeatUntil | .define => False
  | _ => True

/-- A forest without the words of a loop and without anything that reads as a definition. -/
structure Tame (F : List Token) : Prop where
  words : ∀ t, InForest F t → t.is .word "loop" = false ∧ t.is .word "until" = false
  definitions : ∀ L, Level F L → ¬ DefinesIn (L.filter isSignificant)

variable {source : String} {strict : Bool} {F L T : List Token} {t : Token}

section Flat

theorem Token.Grouped.closing_of_parenthesized (h : Grouped source strict t)
    (hp : t.isParenthesized = true) : ∃ X c, flatten t = X ++ [c] ∧ c.isSymbol ")" = true := by
  cases h with
  | leaf _ => cases hp
  | @group children opener closer _ hc _ _ _ =>
    have hopener : opener.value = "(" := by
      by_contra hne
      simp [isParenthesized, inside?, hne] at hp
    have hcloser : closing? "(" = some closer.value := hopener ▸ hc.2
    refine ⟨opener :: flattenAll children, closer, rfl, ?_⟩
    simp [isSymbol, is, hc.1, ← Option.some.inj hcloser]
  | call _ _ _ _ => cases hp

theorem Token.Grouped.closing (h : Grouped source strict t) (hc : t.closes = true) :
    ∃ X c, flatten t = X ++ [c] ∧ c.isSymbol ")" = true := by
  cases t with
  | leaf => exact h.closing_of_parenthesized hc
  | group => exact h.closing_of_parenthesized hc
  | call kind value index stop name arguments =>
    cases h with
    | call _ _ hp ha =>
      obtain ⟨X, c, hX, hsymbol⟩ := ha.closing_of_parenthesized hp
      exact ⟨name :: X, c, congrArg (name :: ·) hX, hsymbol⟩

theorem significant_of_symbol {value : String} (h : t.isSymbol value = true)
    (hv : value = ")" ∨ value = "=") : t.isSignificant = true := by
  simp only [isSymbol, is, Bool.and_eq_true, beq_iff_eq] at h
  rcases hv with rfl | rfl <;> simp [isSignificant, isTerminator, isSymbol, is, h.2]

/-- What is not significant is a token of the text itself, so that it may be left out before or
after the text is read off. -/
theorem filter_flattenAll (hL : ∀ t ∈ L, Grouped source strict t) :
    (flattenAll (L.filter isSignificant)).filter isSignificant =
      (flattenAll L).filter isSignificant := by
  induction L with
  | nil => rfl
  | cons t L ih =>
    obtain ⟨ht, hL⟩ := List.forall_mem_cons.mp hL
    by_cases hs : t.isSignificant = true
    · rw [List.filter_cons_of_pos hs]
      simp only [flattenAll, List.filter_append, ih hL]
    · have hkind : t.kind = .symbol := by
        by_contra hk
        exact hs (significant_of_kind hk)
      rw [List.filter_cons_of_neg hs, ih hL]
      simp [flattenAll, ht.flatten_of_kind hkind, hs]

theorem flattenAll_definesIn (hL : ∀ t ∈ L, Grouped source strict t)
    (h : DefinesIn (L.filter isSignificant)) :
    ∃ A c e E, (flattenAll L).filter isSignificant = A ++ c :: e :: E ∧
      c.isSymbol ")" = true ∧ e.isSymbol "=" = true := by
  obtain ⟨A, s, e, E, heq, hs, he⟩ := h
  have hmem : ∀ u ∈ A ++ s :: e :: E, Grouped source strict u := by
    intro u hu
    rw [← heq] at hu
    exact hL u (List.mem_filter.mp hu).1
  obtain ⟨X, c, hX, hc⟩ := (hmem s (by simp)).closing hs
  have hkind : e.kind = .symbol := by
    simp only [isSymbol, is, Bool.and_eq_true, beq_iff_eq] at he
    exact he.1
  have hflat : flatten e = [e] := (hmem e (by simp)).flatten_of_kind hkind
  refine ⟨(flattenAll A).filter isSignificant ++ X.filter isSignificant, c, e,
    (flattenAll E).filter isSignificant, ?_, hc, he⟩
  rw [← filter_flattenAll hL, heq]
  simp [flattenAll_append, flattenAll, hX, hflat, significant_of_symbol hc (.inl rfl),
    significant_of_symbol he (.inr rfl)]

end Flat

theorem LoopFree.tame (h : LoopFree source) (hF : ForestOf source strict F) : Tame F := by
  constructor
  case words =>
    intro t ht
    have hword : ∀ value, (∀ u ∈ scan source, u.is .word value = false) →
        t.is .word value = false := by
      intro value hnone
      by_contra hv
      have hkind : t.kind = .word := by
        simp only [is, Bool.not_eq_false, Bool.and_eq_true, beq_iff_eq] at hv
        exact hv.1
      obtain ⟨kind, text, index, stop, rfl⟩ :=
        (ht.placed hF.ordered).eq_leaf (by simp [hkind]) (by simp [hkind])
      exact hv (hnone _ ((hF.flatten_scan ht).subset List.mem_cons_self))
    exact ⟨hword _ (fun u hu => (h.words u hu).1), hword _ (fun u hu => (h.words u hu).2)⟩
  case definitions =>
    intro L hL hd
    obtain ⟨A, c, e, E, heq, hc, he⟩ := flattenAll_definesIn (hL.grouped hF.wellFormed.grouped) hd
    -- the level is a piece of the source, in which no two tokens stand like this
    have hpiece := hL.flattenAll_piece.filter isSignificant
    rw [hF.flat, heq] at hpiece
    obtain ⟨before, behind, hsource⟩ := hpiece
    have hchain := h.closings
    rw [← hsource] at hchain
    have hpair : (c :: e :: E).IsChain _ := hchain.left_of_append.right_of_append.right_of_append
    exact (List.isChain_cons_cons.mp hpair).1 ⟨hc, he⟩

namespace Tame

variable (hF : Ordered F) (hT : Tame F)

include hF in
theorem significant_of_closes (ht : InForest F t) (hc : t.closes = true) :
    t.isSignificant = true := by
  have hp := ht.placed hF
  refine significant_of_kind (fun hk => ?_)
  obtain ⟨kind, value, index, stop, rfl⟩ := hp.eq_leaf (by simp [hk]) (by simp [hk])
  cases hc

include hF hT

theorem not_definesIn (h : Reading F T) : ¬ DefinesIn T := by
  rintro ⟨A, s, e, E, rfl, hs, he⟩
  have hclose := significant_of_closes hF (h.inForest (t := s) (by simp)) hs
  have hequals := significant_of_symbol he (.inr rfl)
  obtain ⟨L, hL, P, S, _, hfilter⟩ := h
  refine hT.definitions L hL ⟨(P ++ A).filter isSignificant, s, e,
    (E ++ S).filter isSignificant, ?_, hs, he⟩
  simp [hfilter, hclose, hequals]

theorem head_bounded {after : Bool} {rest : List Token} {h : Head} (hr : Reading F (t :: rest))
    (hh : head source strict after t rest = .ok h) (body : List Statement) :
    (h.finish body).kind.Bounded := by
  have hasks := head_asks hh body
  generalize (h.finish body).kind = kind at hasks ⊢
  cases kind with
  | loop =>
    have hnot := (hT.words t (hr.inForest List.mem_cons_self)).1
    exact Bool.false_ne_true (hnot.symm.trans hasks)
  | repeatUntil =>
    obtain ⟨u, hu, hword⟩ := hasks
    have hnot := (hT.words u (hr.inForest (List.mem_cons_of_mem _ hu))).2
    exact Bool.false_ne_true (hnot.symm.trans hword)
  | define => exact hT.not_definesIn hF hr hasks
  | _ => trivial

end Tame

end Abacus
