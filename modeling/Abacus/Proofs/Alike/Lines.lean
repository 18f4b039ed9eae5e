import Abacus.Expression.Runs
import Abacus.Proofs.Alike.Basic

/-! Lists that correspond are cut alike: into lines, blocks, amounts, arguments and parameters. -/

namespace Abacus

open Token

section Meets

variable {T : List Token}

theorem meets_of_significant {t : Token} (h : t.isSignificant = true) (k : Nat) (T : List Token) :
    meets k (t :: T) = t.isParenthesized := by
  simp only [isSignificant, isTerminator, Bool.and_eq_true, Bool.not_eq_true',
    Bool.or_eq_false_iff] at h
  simp [meets, isNewline, h]

theorem meets_filter (k : Nat) (T : List Token) :
    meets k (T.filter (fun t => !t.isNewline)) = meets k T := by
  induction T generalizing k with
  | nil => rfl
  | cons t T ih =>
    by_cases hn : t.isNewline = true
    · simp [meets, hn, ih]
    · have hf : t.isNewline = false := by simpa using hn
      simp only [List.filter_cons, hf, Bool.not_false, if_true, meets, ih]

/-- A list that ends earlier meets no more. -/
theorem meets_append {k : Nat} {A B : List Token} (h : meets k (A ++ B) = false) :
    meets k A = false := by
  induction A generalizing k with
  | nil => rfl
  | cons t A ih =>
    simp only [List.cons_append, meets] at h ⊢
    by_cases hn : t.isNewline = true
    · simp only [hn, if_true] at h ⊢
      exact ih h
    · by_cases hs : t.isSymbol ";" = true
      · simp only [hn, hs, if_true] at h ⊢
        cases k with
        | zero => rfl
        | succ k => exact ih h
      · by_cases hb : t.isSymbol "\\" = true
        · simp only [hn, hs, hb, if_true] at h ⊢
          exact ih h
        · simpa [hn, hs, hb] using h

/-- What a line leaves out does not bring a bracket closer. -/
theorem meets_lineFrom {p k : Nat} (hp : p ≤ k) (h : meets k T = false) :
    meets 0 (lineFrom p T).1 = false := by
  induction T generalizing p k with
  | nil => rfl
  | cons t T ih =>
    by_cases hn : t.isSymbol "\n" = true
    · simp only [meets, isNewline, hn, if_true] at h
      simp only [lineFrom, isTerminator, hn, Bool.true_or, if_true]
      cases p with
      | zero => rfl
      | succ p => exact ih (by omega) h
    · by_cases hs : t.isSymbol ";" = true
      · simp only [lineFrom, isTerminator, hs, Bool.or_true, if_true]
        cases p with
        | zero => rfl
        | succ p =>
          obtain ⟨k, rfl⟩ : ∃ j, k = j + 1 := ⟨k - 1, by omega⟩
          simp only [meets, isNewline, hn, hs, if_true] at h
          exact ih (by omega) h
      · by_cases hb : t.isSymbol "\\" = true
        · simp only [meets, isNewline, hn, hs, hb, if_true] at h
          simp only [lineFrom, isTerminator, hn, hs, hb, if_true]
          exact ih (by omega) h
        · simp only [meets, isNewline, hn, hs, hb] at h
          simp only [lineFrom, isTerminator, hn, hs, hb]
          simpa [meets, isNewline, hn, hs, hb] using h

theorem meets_blockFrom {p k : Nat} (hp : p ≤ k) (h : meets k T = false) {R E : List Token}
    {b : Token} (hb : blockFrom p T = some (R, b, E)) : meets 0 R = false := by
  induction T generalizing p k R with
  | nil => cases hb
  | cons t T ih =>
    simp only [blockFrom] at hb
    split at hb
    · cases hb
      rfl
    · by_cases hn : t.isSymbol "\n" = true
      · simp only [meets, isNewline, hn, if_true] at h
        simp only [isTerminator, hn, Bool.true_or, if_true] at hb
        cases p with
        | zero => cases hb
        | succ p => exact ih (by omega) h hb
      · by_cases hs : t.isSymbol ";" = true
        · simp only [isTerminator, hs, Bool.or_true, if_true] at hb
          cases p with
          | zero => cases hb
          | succ p =>
            obtain ⟨k, rfl⟩ : ∃ j, k = j + 1 := ⟨k - 1, by omega⟩
            simp only [meets, isNewline, hn, hs, if_true] at h
            exact ih (by omega) h hb
        · by_cases hc : t.isSymbol "\\" = true
          · simp only [meets, isNewline, hn, hs, hc, if_true] at h
            simp only [isTerminator, hn, hs, hc, if_true] at hb
            exact ih (by omega) h hb
          · simp only [meets, isNewline, hn, hs, hc] at h
            simp only [isTerminator, hn, hs, hc] at hb
            obtain ⟨⟨R', b', E'⟩, _, heq⟩ := Option.map_eq_some_iff.mp hb
            cases heq
            simpa [meets, isNewline, hn, hs, hc] using h

end Meets

theorem stopOf_cons (t : Token) (T : List Token) (d : Int) :
    stopOf (t :: T) d = stopOf T t.stop := by
  simp only [stopOf, List.getLast?_cons]
  cases T.getLast? <;> rfl

theorem sourceOf_cons (source : String) (t : Token) (T : List Token) :
    sourceOf source (t :: T) = Text.slice source t.index (stopOf T t.stop) := by
  simp only [sourceOf, stopOf, List.head?_cons, List.getLast?_cons]
  cases T.getLast? <;> rfl

namespace Likeness

variable {L : Likeness} {t t' : Token} {T T' : List Token}

theorem Leaf.significant_of_isName (h : L.Leaf t t') (hn : t.isName = true) :
    t.isSignificant = true ∧ t'.isSignificant = true := by
  have hk := kind_of_isName hn
  exact ⟨significant_of_kind (by simp [hk]), significant_of_kind (by simp [← h.kind_eq, hk])⟩

theorem Twin.group_kind (h : L.Twin t t') (hp : t.isParenthesized = true) :
    t.kind = .group ∧ t'.kind = .group := by
  cases h with
  | leaf h => simp [h.not_parenthesized] at hp
  | group _ _ _ _ _ _ _ => exact ⟨rfl, rfl⟩
  | call _ _ _ _ _ => simp [isParenthesized, inside?, fuse] at hp

namespace Tokens

theorem isEmpty_eq (h : L.Tokens T T') : T.isEmpty = T'.isEmpty := by
  cases h <;> rfl

theorem stopOf_like (h : L.Tokens T T') {d d' : Int} (hd : L.stops d d') :
    L.stops (stopOf T d) (stopOf T' d') := by
  induction h generalizing d d' with
  | nil => exact hd
  | leaf h _ _ ih =>
    rw [stopOf_cons, stopOf_cons]
    exact ih h.stops_stop
  | group hv hi hb hs ho hc _ _ _ ih =>
    rw [stopOf_cons, stopOf_cons]
    exact ih hs
  | call hl hn hv ha hp _ _ ih =>
    rw [stopOf_cons, stopOf_cons]
    exact ih (Twin.call hl hn hv ha hp).stops_stop
  | loose _ _ _ _ ha _ _ _ _ ih =>
    rw [stopOf_cons, stopOf_cons, stopOf_cons]
    exact ih ha.twin.stops_stop

theorem spot_stopOf (h : L.Tokens T T') {d d' : Int} (hd : L.stops d d') :
    L.spot (stopOf T d) (stopOf T' d') :=
  L.spot_of_stops (h.stopOf_like hd)

theorem spot_first (h : L.Tokens T T') {d d' : Int} (hd : L.spot d d') :
    L.spot ((T.head?.map Token.index).getD d) ((T'.head?.map Token.index).getD d') := by
  cases h with
  | nil => exact hd
  | leaf h _ _ => exact h.spot_index
  | group _ hi _ _ _ _ _ _ => exact hi
  | call _ hn _ _ _ _ => exact hn.spot_index
  | loose _ hn _ _ _ _ _ _ => exact hn.spot_index

/-- The text of a list runs from its first token to its last one. -/
theorem sourceOf_like (h : L.Tokens T T') :
    L.Text (sourceOf L.source T) (sourceOf L.source' T') := by
  intro hv
  cases h with
  | nil => rfl
  | leaf h _ hT =>
    rw [sourceOf_cons, sourceOf_cons]
    exact L.slices hv h.spot_index (hT.spot_stopOf h.stops_stop)
  | group _ hi _ hs _ _ _ hT =>
    rw [sourceOf_cons, sourceOf_cons]
    exact L.slices hv hi (hT.spot_stopOf hs)
  | call hl hn hv' ha hp hT =>
    rw [sourceOf_cons, sourceOf_cons]
    exact L.slices hv hn.spot_index (hT.spot_stopOf (Twin.call hl hn hv' ha hp).stops_stop)
  | loose _ hn _ _ ha _ _ hT =>
    rw [sourceOf_cons, sourceOf_cons, stopOf_cons]
    exact L.slices hv hn.spot_index (hT.spot_stopOf ha.twin.stops_stop)

/-- Dropping newlines keeps lists alike. -/
theorem withoutNewlines (h : L.Tokens T T') :
    L.Tokens (T.filter (fun t => !t.isNewline)) (T'.filter (fun t => !t.isNewline)) := by
  have hkeep : ∀ {u : Token}, u.isSignificant = true → (!u.isNewline) = true := by
    intro u hu
    simp [not_newline_of_significant hu]
  induction h with
  | nil => exact .nil
  | @leaf t t' T T' h hn _ ih =>
    have heq : t'.isNewline = t.isNewline := (h.is_eq .symbol "\n").symm
    simp only [List.filter_cons, heq]
    split
    · refine .leaf h (fun hl hname => ?_) ih
      rw [meets_filter]
      exact hn hl hname
    · exact ih
  | group hv hi hb hs ho hc hC _ _ ih => exact .group hv hi hb hs ho hc hC ih
  | call hl hn hv ha hp _ _ ih => exact .call hl hn hv ha hp ih
  | @loose n n' a a' T T' hl hn hm hv ha hp ht _ _ ih =>
    have hname := (hn.significant_of_isName hm).2
    have hgroup := significant_of_kind (t := a') (by simp [(ha.twin.group_kind hp).2])
    have hright : (n' :: a' :: T').filter (fun t => !t.isNewline) =
        n' :: a' :: T'.filter (fun t => !t.isNewline) := by
      simp [hkeep hname, hkeep hgroup]
    rw [hright]
    exact .loose hl hn hm hv ha hp ht ih

theorem lineFrom_of_significant {t : Token} (h : t.isSignificant = true) (p : Nat)
    (T : List Token) : lineFrom p (t :: T) = (t :: (lineFrom 0 T).1, (lineFrom 0 T).2) := by
  simp only [isSignificant, Bool.and_eq_true, Bool.not_eq_true'] at h
  simp [lineFrom, h]

theorem lineFrom_like (h : L.Tokens T T') (p : Nat) :
    L.Tokens (lineFrom p T).1 (lineFrom p T').1 ∧ L.Tokens (lineFrom p T).2 (lineFrom p T').2 := by
  induction h generalizing p with
  | nil => exact ⟨.nil, .nil⟩
  | @leaf t t' T T' h hn hT ih =>
    have hterm : t.isTerminator = t'.isTerminator := (Twin.leaf h).isTerminator_eq
    have hslash : t.isSymbol "\\" = t'.isSymbol "\\" := h.is_eq _ _
    simp only [lineFrom, ← hterm, ← hslash]
    split
    · cases p with
      | zero => exact ⟨.nil, .leaf h hn hT⟩
      | succ p => exact ih p
    · split
      · exact ih (p + 1)
      · refine ⟨.leaf h (fun hl hname => ?_) (ih 0).1, (ih 0).2⟩
        exact ⟨(hn hl hname).1, meets_lineFrom (Nat.le_refl 0) (hn hl hname).2⟩
  | group hv hi hb hs ho hc hC _ _ ih =>
    rw [lineFrom_of_significant (significant_of_kind (by simp [Token.kind])),
      lineFrom_of_significant (significant_of_kind (by simp [Token.kind]))]
    exact ⟨.group hv hi hb hs ho hc hC (ih 0).1, (ih 0).2⟩
  | call hl hn hv ha hp _ _ ih =>
    rw [lineFrom_of_significant (significant_of_kind (by simp [Token.kind, fuse])),
      lineFrom_of_significant (significant_of_kind (by simp [Token.kind, fuse]))]
    exact ⟨.call hl hn hv ha hp (ih 0).1, (ih 0).2⟩
  | @loose n n' a a' T T' hl hn hm hv ha hp ht _ _ ih =>
    have hgroup := significant_of_kind (t := a') (by simp [(ha.twin.group_kind hp).2])
    rw [lineFrom_of_significant (significant_of_kind (by simp [Token.kind, fuse])),
      lineFrom_of_significant (hn.significant_of_isName hm).2, lineFrom_of_significant hgroup]
    exact ⟨.loose hl hn hm hv ha hp ht (ih 0).1, (ih 0).2⟩

theorem line_like (h : L.Tokens T T') :
    L.Tokens (line T).1 (line T').1 ∧ L.Tokens (line T).2 (line T').2 :=
  h.lineFrom_like 0

end Tokens

theorem rel_map {γ δ ε ζ : Type} {R : γ → δ → Prop} {S : ε → ζ → Prop} {x : Option γ}
    {y : Option δ} {f : γ → ε} {g : δ → ζ} (h : Option.Rel R x y)
    (hf : ∀ v w, x = some v → R v w → S (f v) (g w)) : Option.Rel S (x.map f) (y.map g) := by
  cases h with
  | none => exact .none
  | some h => exact .some (hf _ _ rfl h)

/-- A block with what stands before and behind it. -/
structure Cut (L : Likeness) (x x' : List Token × Token × List Token) : Prop where
  before : L.Tokens x.1 x'.1
  block : L.Twin x.2.1 x'.2.1
  behind : L.Tokens x.2.2 x'.2.2

theorem Cut.preceded {x x' : List Token × Token × List Token} {P P' : List Token}
    (h : L.Cut x x') (hP : L.Tokens P P') : L.Cut (P, x.2) (P', x'.2) :=
  ⟨hP, h.block, h.behind⟩

namespace Tokens

theorem blockFrom_of_significant {t : Token} (h : t.isSignificant = true)
    (hb : t.isBlock = false) (p : Nat) (T : List Token) :
    blockFrom p (t :: T) = (blockFrom 0 T).map (fun x => (t :: x.1, x.2)) := by
  simp only [isSignificant, Bool.and_eq_true, Bool.not_eq_true'] at h
  simp [blockFrom, hb, h]

theorem not_block_of_parenthesized {t : Token} (h : t.isParenthesized = true) :
    t.isBlock = false := by
  cases t with
  | leaf => simp [isParenthesized, inside?] at h
  | call => simp [isParenthesized, inside?] at h
  | group kind value index stop children opener closer =>
    have ho : opener.value = "(" := by
      by_contra hne
      simp [isParenthesized, inside?, hne] at h
    simp [isBlock, inside?, ho]

theorem blockFrom_like (h : L.Tokens T T') (p : Nat) :
    Option.Rel L.Cut (blockFrom p T) (blockFrom p T') := by
  induction h generalizing p with
  | nil => exact .none
  | @leaf t t' T T' h hn hT ih =>
    have hterm : t.isTerminator = t'.isTerminator := (Twin.leaf h).isTerminator_eq
    have hslash : t.isSymbol "\\" = t'.isSymbol "\\" := h.is_eq _ _
    have hblock : t'.isBlock = false := (Twin.leaf h).isBlock_eq ▸ h.not_block
    simp only [blockFrom, ← hterm, ← hslash, h.not_block, hblock]
    split
    · contradiction
    · split
      · cases p with
        | zero => exact .none
        | succ p => exact ih p
      · split
        · exact ih (p + 1)
        · refine rel_map (ih 0) (fun x x' hx hcut => hcut.preceded ?_)
          refine .leaf h (fun hl hname => ?_) hcut.before
          exact ⟨(hn hl hname).1, meets_blockFrom (Nat.le_refl 0) (hn hl hname).2 hx⟩
  | @group v v' i i' s s' C C' T T' o o' c c' hv hi hb hs ho hc hC hT _ ih =>
    have htwin : L.Twin (.group .group v i s C o c) (.group .group v' i' s' C' o' c') :=
      .group hv hi hb hs ho hc hC
    have hsig := significant_of_kind (t := .group .group v i s C o c) (by simp [Token.kind])
    have hsig' := significant_of_kind (t := .group .group v' i' s' C' o' c') (by simp [Token.kind])
    cases hblock : (Token.group .group v i s C o c).isBlock with
    | true =>
      have hblock' := htwin.isBlock_eq ▸ hblock
      simp only [blockFrom, hblock, hblock', if_true]
      exact .some ⟨.nil, htwin, hT⟩
    | false =>
      have hblock' := htwin.isBlock_eq ▸ hblock
      rw [blockFrom_of_significant hsig hblock, blockFrom_of_significant hsig' hblock']
      exact rel_map (ih 0) (fun _ _ _ hcut =>
        hcut.preceded (.group hv hi hb hs ho hc hC hcut.before))
  | call hl hn hv ha hp _ _ ih =>
    rw [blockFrom_of_significant (significant_of_kind (by simp [Token.kind, fuse])) rfl,
      blockFrom_of_significant (significant_of_kind (by simp [Token.kind, fuse])) rfl]
    exact rel_map (ih 0) (fun _ _ _ hcut => hcut.preceded (.call hl hn hv ha hp hcut.before))
  | @loose n n' a a' T T' hl hn hm hv ha hp ht _ _ ih =>
    have hgroup := significant_of_kind (t := a') (by simp [(ha.twin.group_kind hp).2])
    have hname : n'.isBlock = false := (Twin.leaf hn).isBlock_eq ▸ hn.not_block
    have hparen : a'.isBlock = false :=
      not_block_of_parenthesized (ha.twin.isParenthesized_eq ▸ hp)
    rw [blockFrom_of_significant (significant_of_kind (by simp [Token.kind, fuse])) rfl,
      blockFrom_of_significant (hn.significant_of_isName hm).2 hname,
      blockFrom_of_significant hgroup hparen, Option.map_map]
    exact rel_map (ih 0) (fun _ _ _ hcut =>
      hcut.preceded (.loose hl hn hm hv ha hp ht hcut.before))

theorem amountFrom_cons {t : Token} (ht : t.isTerminator = false) (hb : t.isBlock = false)
    (hw : t.is .word "times" = false) (T : List Token) :
    amountFrom (t :: T) = (amountFrom T).map (fun x => (t :: x.1, x.2)) := by
  simp [amountFrom, ht, hb, hw]

/-- A bracket that holds no block, or a call. -/
theorem amountFrom_of_kind {t : Token} (hk : t.kind = .group ∨ t.kind = .call)
    (hb : t.isBlock = false) (T : List Token) :
    amountFrom (t :: T) = (amountFrom T).map (fun x => (t :: x.1, x.2)) := by
  refine amountFrom_cons ?_ hb ?_ T
  · rcases hk with hk | hk <;> simp [isTerminator, isSymbol, Token.is, hk]
  · rcases hk with hk | hk <;> simp [Token.is, hk]

theorem amountFrom_like (h : L.Tokens T T') :
    Option.Rel (fun x x' => L.Tokens x.1 x'.1 ∧ L.Tokens x.2 x'.2) (amountFrom T)
      (amountFrom T') := by
  induction h with
  | nil => exact .none
  | @leaf t t' T T' h hn hT ih =>
    have hterm : t.isTerminator = t'.isTerminator := (Twin.leaf h).isTerminator_eq
    have hblock : t'.isBlock = false := (Twin.leaf h).isBlock_eq ▸ h.not_block
    simp only [amountFrom, ← hterm, ← h.is_eq .word "times", h.not_block, hblock]
    split
    · exact .none
    · split
      · exact .some ⟨.nil, hT⟩
      · refine rel_map ih (fun x x' hx hcut => ⟨.leaf h (fun hl hname => ?_) hcut.1, hcut.2⟩)
        obtain ⟨last, hsplit, _⟩ := amountFrom_eq (R := x.1) (E := x.2) hx
        refine ⟨(hn hl hname).1, meets_append (B := last :: x.2) ?_⟩
        rw [← hsplit]
        exact (hn hl hname).2
  | @group v v' i i' s s' C C' T T' o o' c c' hv hi hb hs ho hc hC hT _ ih =>
    have htwin : L.Twin (.group .group v i s C o c) (.group .group v' i' s' C' o' c') :=
      .group hv hi hb hs ho hc hC
    cases hblock : (Token.group .group v i s C o c).isBlock with
    | true =>
      have hblock' := htwin.isBlock_eq ▸ hblock
      simp only [amountFrom, hblock, hblock', Bool.or_true, if_true]
      exact .none
    | false =>
      have hblock' := htwin.isBlock_eq ▸ hblock
      rw [amountFrom_of_kind (.inl rfl) hblock, amountFrom_of_kind (.inl rfl) hblock']
      exact rel_map ih (fun _ _ _ hcut => ⟨.group hv hi hb hs ho hc hC hcut.1, hcut.2⟩)
  | call hl hn hv ha hp _ _ ih =>
    rw [amountFrom_of_kind (.inr rfl) rfl, amountFrom_of_kind (.inr rfl) rfl]
    exact rel_map ih (fun _ _ _ hcut => ⟨.call hl hn hv ha hp hcut.1, hcut.2⟩)
  | @loose n n' a a' T T' hl hn hm hv ha hp ht _ _ ih =>
    have hkind := (ha.twin.group_kind hp).2
    have hname : n'.isBlock = false := (Twin.leaf hn).isBlock_eq ▸ hn.not_block
    have hparen : a'.isBlock = false :=
      not_block_of_parenthesized (ha.twin.isParenthesized_eq ▸ hp)
    have hsig := (hn.significant_of_isName hm).2
    simp only [isSignificant, Bool.and_eq_true, Bool.not_eq_true'] at hsig
    have htimes : n'.is .word "times" = false := by
      rw [hn.isName_eq] at hm
      by_contra hw
      simp only [Bool.not_eq_false, Token.is, Bool.and_eq_true, beq_iff_eq] at hw
      simp [isName, hw.2, keywords] at hm
    rw [amountFrom_of_kind (.inr rfl) rfl, amountFrom_cons hsig.1 hname htimes,
      amountFrom_of_kind (.inl hkind) hparen, Option.map_map]
    exact rel_map ih (fun _ _ _ hcut => ⟨.loose hl hn hm hv ha hp ht hcut.1, hcut.2⟩)

def isOperand (t : Token) : Bool :=
  !t.isSymbol ","

theorem isOperand_of_kind {t : Token} (h : t.kind ≠ .symbol) : isOperand t = true := by
  simp [isOperand, isSymbol, Token.is, h]

/-- What stands behind the first comma. -/
inductive Behind (L : Likeness) : List Token → List Token → Prop where
  | nothing : Behind L [] []
  | comma {c c' : Token} {D D' : List Token} (h : L.Leaf c c') (hD : L.Tokens D D') :
      Behind L (c :: D) (c' :: D')

theorem toComma_like (h : L.Tokens T T') :
    L.Tokens (T.takeWhile isOperand) (T'.takeWhile isOperand) ∧
      Behind L (T.dropWhile isOperand) (T'.dropWhile isOperand) := by
  induction h with
  | nil => exact ⟨.nil, .nothing⟩
  | @leaf t t' T T' h hn hT ih =>
    have heq : isOperand t = isOperand t' := by simp only [isOperand, isSymbol, h.is_eq]
    simp only [List.takeWhile_cons, List.dropWhile_cons, ← heq]
    split
    · refine ⟨.leaf h (fun hl hname => ⟨(hn hl hname).1, ?_⟩) ih.1, ih.2⟩
      refine meets_append (B := T.dropWhile isOperand) ?_
      rw [List.takeWhile_append_dropWhile]
      exact (hn hl hname).2
    · exact ⟨.nil, .comma h hT⟩
  | group hv hi hb hs ho hc hC _ _ ih =>
    have hkeep : ∀ {v : String} {i s : Int} {C : List Token} {o c : Token},
        isOperand (.group .group v i s C o c) = true :=
      fun {_ _ _ _ _ _} => isOperand_of_kind (by simp [Token.kind])
    simp only [List.takeWhile_cons_of_pos hkeep, List.dropWhile_cons_of_pos hkeep]
    exact ⟨.group hv hi hb hs ho hc hC ih.1, ih.2⟩
  | call hl hn hv ha hp _ _ ih =>
    have hkeep : ∀ {n a : Token}, isOperand (fuse n a) = true :=
      fun {_ _} => isOperand_of_kind (by simp [Token.kind, fuse])
    simp only [List.takeWhile_cons_of_pos hkeep, List.dropWhile_cons_of_pos hkeep]
    exact ⟨.call hl hn hv ha hp ih.1, ih.2⟩
  | @loose n n' a a' T T' hl hn hm hv ha hp ht _ _ ih =>
    have hcall : isOperand (fuse n a) = true := isOperand_of_kind (by simp [Token.kind, fuse])
    have hgroup : isOperand a' = true := isOperand_of_kind (by simp [(ha.twin.group_kind hp).2])
    have hname : isOperand n' = true := by
      rw [hn.isName_eq] at hm
      exact isOperand_of_kind (by simp [kind_of_isName hm])
    simp only [List.takeWhile_cons_of_pos hcall, List.dropWhile_cons_of_pos hcall,
      List.takeWhile_cons_of_pos hgroup, List.dropWhile_cons_of_pos hgroup,
      List.takeWhile_cons_of_pos hname, List.dropWhile_cons_of_pos hname]
    exact ⟨.loose hl hn hm hv ha hp ht ih.1, ih.2⟩

/-- The arguments up to the first comma, and those behind it. -/
theorem splitFrom_eq (closer : Int) (current T : List Token) :
    splitFrom closer current T =
      let first := current.reverse ++ T.takeWhile isOperand
      match T.dropWhile isOperand with
      | [] =>
        if first.isEmpty then .error ⟨closer, "Unexpected end of the call argument.", 1⟩
        else .ok [first]
      | comma :: rest =>
        if first.isEmpty then .error ⟨comma.index, "Unexpected comma.", 1⟩
        else (splitFrom closer [] rest).map (first :: ·) := by
  induction T generalizing current with
  | nil => cases current <;> simp [splitFrom]
  | cons t T ih =>
    simp only [splitFrom, List.takeWhile_cons, List.dropWhile_cons]
    by_cases hc : t.isSymbol "," = true
    · cases current <;> simp [isOperand, hc]
    · simp only [isOperand, hc, ih, Bool.not_false, if_true]
      simp

theorem splitFrom_like (h : L.Tokens T T') {closer closer' : Int} (hc : L.spot closer closer') :
    L.Agree (List.Forall₂ L.Tokens) (splitFrom closer [] T) (splitFrom closer' [] T') := by
  generalize hlen : T.length = n
  induction n using Nat.strong_induction_on generalizing T T' with
  | _ n ih =>
    obtain ⟨hfirst, hrest⟩ := h.toComma_like
    have hle := (List.dropWhile_suffix (l := T) isOperand).length_le
    rw [splitFrom_eq, splitFrom_eq]
    simp only [List.reverse_nil, List.nil_append, ← hfirst.isEmpty_eq]
    generalize T.dropWhile isOperand = D at hrest hle ⊢
    generalize T'.dropWhile isOperand = D' at hrest ⊢
    generalize T.takeWhile isOperand = A at hfirst ⊢
    generalize T'.takeWhile isOperand = A' at hfirst ⊢
    by_cases hA : A.isEmpty = true
    · simp only [hA, if_true]
      cases hrest with
      | nothing => exact .error ⟨hc, rfl, fun _ => rfl⟩
      | comma h _ => exact .error ⟨h.spot_index, rfl, fun _ => rfl⟩
    · simp only [hA]
      cases hrest with
      | nothing => exact .ok (.cons hfirst .nil)
      | @comma c c' D D' h hD =>
        simp only [List.length_cons] at hle
        have hothers := ih D.length (by omega) hD rfl
        exact hothers.map (fun _ _ hruns => .cons hfirst hruns)

theorem splitArguments_like (h : L.Tokens T T') {closer closer' : Int}
    (hc : L.spot closer closer') :
    L.Agree (List.Forall₂ L.Tokens) (splitArguments closer T) (splitArguments closer' T') := by
  have hfilter := h.withoutNewlines
  unfold splitArguments
  generalize T.filter (fun t => !t.isNewline) = R at hfilter ⊢
  generalize T'.filter (fun t => !t.isNewline) = R' at hfilter ⊢
  cases R with
  | nil =>
    cases hfilter
    exact .ok .nil
  | cons t R =>
    obtain ⟨u, U, rfl⟩ : ∃ u U, R' = u :: U := by
      cases hfilter with
      | leaf _ _ _ => exact ⟨_, _, rfl⟩
      | group _ _ _ _ _ _ _ _ => exact ⟨_, _, rfl⟩
      | call _ _ _ _ _ _ => exact ⟨_, _, rfl⟩
      | loose _ _ _ _ _ _ _ _ => exact ⟨_, _, rfl⟩
    exact hfilter.splitFrom_like hc

end Tokens

/-- Lists of which the tokens correspond one by one, up to a call that is loose. -/
inductive Row (L : Likeness) : List Token → List Token → Prop where
  | nil : Row L [] []
  | cons {t t' : Token} {T T' : List Token} (h : L.Twin t t')
      (hn : L.loose → t.isName = true → t.value.length = 1) (hT : Row L T T') :
      Row L (t :: T) (t' :: T')
  | lost {n a : Token} {T T' : List Token} (hl : L.loose) (hv : n.value ++ a.value ≠ ",") :
      Row L (fuse n a :: T) T'

theorem Tokens.row (h : L.Tokens T T') :
    L.Row (T.filter (fun t => !t.isTerminator)) (T'.filter (fun t => !t.isTerminator)) := by
  have hput : ∀ {t t' : Token} {U U' : List Token}, L.Twin t t' →
      (L.loose → t.isName = true → t.value.length = 1) →
      L.Row (U.filter (fun t => !t.isTerminator)) (U'.filter (fun t => !t.isTerminator)) →
      L.Row ((t :: U).filter (fun t => !t.isTerminator))
        ((t' :: U').filter (fun t => !t.isTerminator)) := by
    intro t t' U U' h hn hU
    simp only [List.filter_cons, ← h.isTerminator_eq]
    split
    · exact .cons h hn hU
    · exact hU
  have hname : ∀ {t : Token}, t.kind ≠ .word → L.loose → t.isName = true →
      t.value.length = 1 := by
    intro t hk _ hn
    simp [isName, hk] at hn
  induction h with
  | nil => exact .nil
  | leaf h hn _ ih => exact hput (.leaf h) (fun hl hm => (hn hl hm).1) ih
  | group hv hi hb hs ho hc hC _ _ ih =>
    exact hput (.group hv hi hb hs ho hc hC) (hname (by simp [Token.kind])) ih
  | call hl hn hv ha hp _ _ ih =>
    exact hput (.call hl hn hv ha hp) (hname (by simp [Token.kind, fuse])) ih
  | loose hl hn hm hv ha hp ht _ _ ih =>
    rw [List.filter_cons_of_pos (by simp [isTerminator, isSymbol, Token.is, Token.kind, fuse])]
    exact .lost hl hv

end Likeness

end Abacus
