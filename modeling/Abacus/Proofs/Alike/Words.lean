import Abacus.Proofs.Alike.Steps

/-! The tokens of an expression as they are evaluated. Where calls are loose, the right side joins
the name of a function and the bracket behind it only then; a name that is no function stays apart,
but there the left side fails. -/

namespace Abacus

namespace Token

/-- Puts the names of functions and the brackets behind them together. -/
def fuseAll (isFunction : String → Bool) : List Token → List Token
  | [] => []
  | [t] => [t]
  | t :: g :: rest =>
    if g.isParenthesized && t.kind == .word && t.stop == g.index && isFunction t.value then
      fuse t g :: fuseAll isFunction rest
    else t :: fuseAll isFunction (g :: rest)

variable {isFunction : String → Bool}

theorem fuseAll_cons (t : Token) (T : List Token) :
    fuseAll isFunction (t :: T) = t :: fuseAll isFunction T ∨
      ∃ g U, T = g :: U ∧ g.isParenthesized = true ∧ t.kind = .word ∧ isFunction t.value = true ∧
        fuseAll isFunction (t :: T) = fuse t g :: fuseAll isFunction U := by
  cases T with
  | nil => exact .inl rfl
  | cons g U =>
    by_cases hc : (g.isParenthesized && t.kind == .word && t.stop == g.index &&
        isFunction t.value) = true
    · have hfuse : fuseAll isFunction (t :: g :: U) = fuse t g :: fuseAll isFunction U := by
        rw [fuseAll, if_pos hc]
      simp only [Bool.and_eq_true, beq_iff_eq] at hc
      exact .inr ⟨g, U, rfl, hc.1.1.1, hc.1.1.2, hc.2, hfuse⟩
    · exact .inl (by rw [fuseAll, if_neg hc])

theorem fuseAll_of_kind {t : Token} (h : t.kind ≠ .word) (T : List Token) :
    fuseAll isFunction (t :: T) = t :: fuseAll isFunction T := by
  rcases fuseAll_cons t T with heq | ⟨_, _, _, _, hk, _⟩
  · exact heq
  · exact absurd hk h

theorem fuseAll_ne_nil {T : List Token} (h : T ≠ []) : fuseAll isFunction T ≠ [] := by
  cases T with
  | nil => exact absurd rfl h
  | cons t T =>
    rcases @fuseAll_cons isFunction t T with heq | ⟨_, _, _, _, _, _, heq⟩ <;> simp [heq]

theorem foldl_fuseOnto_eq (t : Token) (before T : List Token) :
    (T.foldl (fuseOnto isFunction) (t :: before)).reverse =
      before.reverse ++ fuseAll isFunction (t :: T) := by
  induction T generalizing t before with
  | nil => simp [fuseAll]
  | cons g T ih =>
    simp only [List.foldl_cons, fuseOnto]
    split
    · next hc =>
      rw [ih, fuseAll_of_kind (by simp [fuse, kind]), fuseAll, if_pos hc]
    · next hc =>
      rw [ih, fuseAll, if_neg hc]
      simp

theorem splitWords_eq (T : List Token) :
    splitWords isFunction T = fuseAll isFunction (splitLong isFunction T) := by
  unfold splitWords
  cases splitLong isFunction T with
  | nil => rfl
  | cons t T => exact foldl_fuseOnto_eq t [] T

theorem splitLong_cons {t : Token} (h : t.isName = true → t.value.length = 1) (T : List Token) :
    splitLong isFunction (t :: T) = t :: splitLong isFunction T := by
  rw [splitLong, if_pos]
  by_cases hk : t.kind = .word
  · by_cases hw : t.value ∈ keywords
    · exact .inr (.inr hw)
    · exact .inr (.inl (h (by simp [isName, hk, hw])))
  · exact .inl hk

end Token

namespace Likeness

open Token

variable {L : Likeness} {t t' : Token} {T T' : List Token} {isFunction : String → Bool}

/-- Tokens that are evaluated alike. -/
inductive Met (L : Likeness) : Token → Token → Prop where
  | leaf {kind : Kind} {value : String} {i i' s s' : Int} (hi : L.spot i i') :
      Met L (.leaf kind value i s) (.leaf kind value i' s')
  | group {v v' : String} {i i' s s' : Int} {C C' : List Token} {o o' c c' : Token}
      (hv : L.Label v v') (hi : L.spot i i') (hb : o.value ≠ "(" → L.starts i i')
      (hs : L.stops s s') (ho : L.Edge o o') (hC : L.Tokens C C') :
      Met L (.group .group v i s C o c) (.group .group v' i' s' C' o' c')
  | call {n n' a a' : Token} (hn : L.Leaf n n') (ha : L.Twin a a')
      (hp : a.isParenthesized = true) : Met L (fuse n a) (fuse n' a')

theorem Twin.met (h : L.Twin t t') : L.Met t t' := by
  cases h with
  | leaf h =>
    cases h with
    | intro hi _ _ => exact .leaf (L.spot_of_starts hi)
  | group hv hi hb hs ho _ hC => exact .group hv hi hb hs ho hC
  | call _ hn _ ha hp => exact .call hn ha.twin hp

namespace Met

theorem kind_eq (h : L.Met t t') : t.kind = t'.kind := by
  cases h <;> rfl

theorem isValue_eq (h : L.Met t t') : t.isValue = t'.isValue := by
  simp only [isValue, h.kind_eq]

theorem spot_index (h : L.Met t t') : L.spot t.index t'.index := by
  cases h with
  | leaf hi => exact hi
  | group _ hi _ _ _ _ => exact hi
  | call hn _ _ => exact hn.spot_index

theorem value_eq (h : L.Met t t') (hv : L.verbatim) : t.value = t'.value := by
  cases h with
  | leaf _ => rfl
  | group hl _ _ _ _ _ => exact hl.same hv
  | call hn ha _ =>
    show _ ++ _ = _ ++ _
    rw [hn.value_eq, ha.label.same hv]

theorem fault_like (h : L.Met t t') (message : String) :
    L.Blames (t.fault message) (t'.fault message) :=
  ⟨h.spot_index, rfl, fun hv => by simp only [Token.fault, Token.length, h.value_eq hv]⟩

/-- An operator is the same on both sides. -/
theorem value_of_operator (h : L.Met t t') (hk : t.kind = .operator) : t.value = t'.value := by
  cases h with
  | leaf _ => rfl
  | group _ _ _ _ _ _ => cases hk
  | call _ _ _ => cases hk

end Met

/-- A token that has no value: a call of what is no function, or the name of a function. -/
def Doomed (isFunction : String → Bool) (t : Token) : Prop :=
  (∃ n a, t = fuse n a ∧ isFunction n.value = false) ∨
    (t.kind = .word ∧ isFunction t.value = true)

theorem Doomed.isValue (h : Doomed isFunction t) : t.isValue = true := by
  rcases h with ⟨n, a, rfl, _⟩ | ⟨hk, _⟩
  · rfl
  · simp [Token.isValue, hk]

/-- Lists of tokens that are evaluated alike up to the first one without a value. -/
inductive Ready (L : Likeness) (isFunction : String → Bool) : List Token → List Token → Prop where
  | nil : Ready L isFunction [] []
  | cons {t t' : Token} {T T' : List Token} (h : L.Met t t') (hT : Ready L isFunction T T') :
      Ready L isFunction (t :: T) (t' :: T')
  | doomed {t : Token} {T' : List Token} (hl : L.loose) (h : Doomed isFunction t)
      (T : List Token) (hne : T' ≠ []) : Ready L isFunction (t :: T) T'

theorem Tokens.ready_of_loose (h : L.Tokens T T') (hl : L.loose) :
    L.Ready isFunction T (splitWords isFunction T') := by
  rw [splitWords_eq]
  induction h with
  | nil => exact .nil
  | @leaf t t' T T' h hn _ ih =>
    have hlong : splitLong isFunction (t' :: T') = t' :: splitLong isFunction T' := by
      refine splitLong_cons (fun hname => ?_) T'
      rw [← h.value_eq]
      exact (hn hl (h.isName_eq ▸ hname)).1
    rw [hlong]
    rcases fuseAll_cons t' (splitLong isFunction T') with heq | ⟨g, U, hU, _, hk, hf, heq⟩
    · rw [heq]
      exact .cons (Twin.leaf h).met ih
    · -- the right side makes a call here, but on the left a function stands alone
      have hdoomed : Doomed isFunction t := .inr ⟨h.kind_eq ▸ hk, h.value_eq ▸ hf⟩
      exact .doomed hl hdoomed T (by simp [heq])
  | @group v v' i i' s s' C C' T T' o o' c c' hv hi hb hs ho hc hC _ _ ih =>
    rw [splitLong_cons (by simp [isName, kind]), fuseAll_of_kind (by simp [kind])]
    exact .cons (.group hv hi hb hs ho hC) ih
  | call hnot => exact absurd hl hnot
  | @loose n n' a a' T T' _ hn hm hv ha hp ht _ _ ih =>
    have hkind : n'.kind = .word := by
      rw [← hn.kind_eq]
      exact kind_of_isName hm
    have hp' : a'.isParenthesized = true := ha.twin.isParenthesized_eq ▸ hp
    have hgroup : splitLong isFunction (a' :: T') = a' :: splitLong isFunction T' :=
      splitLong_cons (by simp [isName, (ha.twin.group_kind hp).2]) T'
    by_cases hf : isFunction n'.value = true
    · have htouches : n'.touches (a' :: T').head? = true := by
        simp [touches, hp', ht]
      have hlong : splitLong isFunction (n' :: a' :: T') =
          n' :: a' :: splitLong isFunction T' := by
        rw [splitLong, hgroup]
        split
        · rfl
        · rw [htouches, hf]
          rfl
      have hcall : fuseAll isFunction (n' :: a' :: splitLong isFunction T') =
          fuse n' a' :: fuseAll isFunction (splitLong isFunction T') := by
        rw [fuseAll, if_pos (by simp [hp', hkind, ht, hf])]
      rw [hlong, hcall]
      exact .cons (.call hn ha.twin hp) ih
    · have hdoomed : Doomed isFunction (fuse n a) := by
        refine .inl ⟨n, a, rfl, ?_⟩
        rw [hn.value_eq]
        exact Bool.eq_false_iff.mpr hf
      refine .doomed hl hdoomed T (fuseAll_ne_nil ?_)
      rw [splitLong, hgroup]
      split
      · simp
      · split <;> simp

theorem Tokens.ready (h : L.Tokens T T') (hl : ¬ L.loose) : L.Ready isFunction T T' := by
  induction h with
  | nil => exact .nil
  | leaf h _ _ ih => exact .cons (Twin.leaf h).met ih
  | group hv hi hb hs ho _ hC _ _ ih => exact .cons (.group hv hi hb hs ho hC) ih
  | call _ hn _ ha hp _ _ ih => exact .cons (.call hn ha.twin hp) ih
  | loose hloose => exact absurd hloose hl

end Likeness

end Abacus
