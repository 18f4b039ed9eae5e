import Abacus.Eval.Expression
import Abacus.Proofs.Alike.Heads
import Abacus.Proofs.Rendered.Basic

/-! Runs of tokens that are evaluated alike. In strict mode words of several letters are split first,
and a bracket that follows the name of a function at once becomes its call. -/

namespace Abacus.Rendering

open Token

variable {R : Rendering} {t t' u u' : Token} {T T' : List Token}

/-- Tokens that are evaluated alike, wherever they stand. -/
inductive Met (R : Rendering) : Token → Token → Prop where
  | leaf {kind : Kind} {value : String} {i i' s s' : Int} :
      Met R (.leaf kind value i s) (.leaf kind value i' s')
  | parentheses {v v' : String} {i i' s s' : Int} {C C' : List Token} {o o' c c' : Token}
      (ho : o.value = "(") (ho' : o'.value = "(") (hC : R.Spoken (unbroken C) (unbroken C')) :
      Met R (.group .group v i s C o c) (.group .group v' i' s' C' o' c')
  | braces {v v' : String} {i i' s s' : Int} {C C' : List Token} {o o' c c' : Token}
      (ho : o.value = "\x7b") (ho' : o'.value = "\x7b") (hC : R.Blocks C C') :
      Met R (.group .group v i s C o c) (.group .group v' i' s' C' o' c')
  | call {n n' a a' : Token} (hn : n.value = n'.value) (ha : R.Listed a.children a'.children) :
      Met R (fuse n a) (fuse n' a')

abbrev Mets (R : Rendering) : List Token → List Token → Prop :=
  List.Forall₂ R.Met

namespace Met

theorem kind_eq (h : R.Met t t') : t.kind = t'.kind := by
  cases h <;> rfl

theorem isValue_eq (h : R.Met t t') : t.isValue = t'.isValue := by
  simp only [isValue, h.kind_eq]

theorem value_of_kind (h : R.Met t t') (hg : t.kind ≠ .group) (hc : t.kind ≠ .call) :
    t.value = t'.value := by
  cases h with
  | leaf => rfl
  | parentheses | braces => exact absurd rfl hg
  | call => exact absurd rfl hc

end Met

theorem Leaf.met (h : R.Leaf t t') : R.Met t t' := by
  cases h
  exact .leaf

theorem Pair.met (h : R.Pair t t') : R.Met t t' := by
  cases h with
  | leaf h => exact h.met
  | parentheses _ ho ho' _ hC => exact .parentheses ho ho' (.inl (Pairs.withoutNewlines hC))
  | braces _ ho ho' hC => exact .braces ho ho' (.inl hC)
  | recast _ ho ho' hC => exact .braces ho ho' (.inr hC)
  | bare _ ho ho' _ hC _ _ => exact .parentheses ho ho' (.inr hC)
  | call _ hn _ _ hC => exact .call hn.value_eq (.pairs hC)
  | bareCall _ hn _ _ hC hC' hX hW hY => exact .call hn.value_eq (.bare hC hC' hX hW hY)

theorem Pairs.mets (h : R.Pairs T T') : R.Mets T T' :=
  h.imp (fun _ _ ht => ht.met)

section Words

/-- A bracket stands at once behind both words or behind none. -/
theorem Pair.touches_iff (h : R.Pair t t') (hk : t.kind = .word) (hu : R.Pair u u')
    (hp : u.isParenthesized = true) : t.stop = u.index ↔ t'.stop = u'.index :=
  R.touch ((h.leaf_of_kind (by simp [hk]) (by simp [hk])).ends hk) (hu.opens hp).1

theorem Pairs.touches_eq (h : R.Pair t t') (hk : t.kind = .word) (hT : R.Pairs T T') :
    t.touches T.head? = t'.touches T'.head? := by
  cases hT with
  | nil => rfl
  | @cons u u' _ _ hu _ =>
    simp only [touches, List.head?_cons, Option.any_some, ← hu.isParenthesized_eq]
    cases hp : u.isParenthesized with
    | false => rfl
    | true => simp [h.touches_iff hk hu hp]

/-- The letters of corresponding words correspond. -/
theorem letters_pairs {cs : List Char} {i i' : Int}
    (h : ∀ j : Nat, 0 < j → j ≤ cs.length → R.ends (i + j) (i' + j)) :
    R.Pairs (letters i cs) (letters i' cs) := by
  induction cs generalizing i i' with
  | nil => exact .nil
  | cons c cs ih =>
    have hfirst : R.ends (i + 1) (i' + 1) := h 1 (by omega) (by simp)
    refine .cons (.leaf (.intro (fun _ => ⟨hfirst, fun j hj hle => ?_⟩))) (ih (fun j hj hle => ?_))
    · rw [String.length_ofList, List.length_singleton] at hle
      obtain rfl : j = 1 := by omega
      exact hfirst
    · have hnext := h (j + 1) (by omega) (by simpa using hle)
      have hadd : ∀ k : Int, k + ((j + 1 : Nat) : Int) = k + 1 + j := fun k => by omega
      rwa [hadd, hadd] at hnext

theorem Pairs.splitLong (isFunction : String → Bool) (h : R.Pairs T T') :
    R.Pairs (splitLong isFunction T) (Token.splitLong isFunction T') := by
  induction h with
  | nil => exact .nil
  | @cons t t' T T' ht hT ih =>
    by_cases hk : t.kind = .word
    · have hleaf := ht.leaf_of_kind (by simp [hk]) (by simp [hk])
      simp only [Token.splitLong, ← ht.kind_eq, ← hleaf.value_eq, ← Pairs.touches_eq ht hk hT]
      split
      · exact .cons ht ih
      · split
        · exact .cons ht ih
        · refine List.rel_append ?_ ih
          cases hleaf with
          | intro hw =>
            refine letters_pairs (fun j hj hle => (hw hk).2 j hj ?_)
            rwa [String.length_toList] at hle
    · have hk' : t'.kind ≠ .word := ht.kind_eq ▸ hk
      simp only [Token.splitLong, if_pos (Or.inl hk), if_pos (Or.inl hk')]
      exact .cons ht ih

/-- Tokens of which the last are still to be put together: a word and what may become its bracket. -/
inductive Held (R : Rendering) : Token → Token → Prop where
  | pair {t t' : Token} (h : R.Pair t t') : Held R t t'
  | fused {n n' a a' : Token} (hn : n.value = n'.value) (ha : R.Listed a.children a'.children) :
      Held R (fuse n a) (fuse n' a')

theorem Held.met (h : R.Held t t') : R.Met t t' := by
  cases h with
  | pair h => exact h.met
  | fused hn ha => exact .call hn ha

theorem fuseOnto_held (hs : R.strict = true) (isFunction : String → Bool)
    (h : List.Forall₂ R.Held T T') (ht : R.Pair t t') :
    List.Forall₂ R.Held (fuseOnto isFunction T t) (fuseOnto isFunction T' t') := by
  have hput : R.Held t t' := .pair ht
  cases h with
  | nil => exact .cons hput .nil
  | @cons n n' T T' hn hT =>
    have hkeep := List.Forall₂.cons hput (.cons hn hT)
    unfold fuseOnto
    dsimp only
    cases hn with
    | fused hn ha =>
      have hcall : ∀ {n a : Token}, ((fuse n a).kind == .word) = false := rfl
      simpa [hcall] using hkeep
    | pair hn =>
      by_cases hp : t.isParenthesized = true ∧ n.kind = .word
      · have hleaf := hn.leaf_of_kind (by simp [hp.2]) (by simp [hp.2])
        rw [← ht.isParenthesized_eq, ← hn.kind_eq, ← hleaf.value_eq, hp.1, hp.2]
        have htouch := hn.touches_iff hp.2 ht hp.1
        by_cases hnext : n.stop = t.index
        · rw [beq_iff_eq.mpr hnext, beq_iff_eq.mpr (htouch.mp hnext)]
          split
          · exact .cons (.fused hleaf.value_eq (ht.listed hp.1 hs)) hT
          · exact hkeep
        · rw [beq_eq_false_iff_ne.mpr hnext,
            beq_eq_false_iff_ne.mpr (fun hh => hnext (htouch.mpr hh))]
          simpa using hkeep
      · have hfalse : (t.isParenthesized && n.kind == .word) = false := by
          by_contra hne
          simp only [Bool.not_eq_false, Bool.and_eq_true, beq_iff_eq] at hne
          exact hp hne
        rw [← ht.isParenthesized_eq, ← hn.kind_eq, hfalse]
        simpa using hkeep

theorem foldl_fuseOnto_held (hs : R.strict = true) (isFunction : String → Bool) {B B' : List Token}
    (hB : List.Forall₂ R.Held B B') (h : R.Pairs T T') :
    List.Forall₂ R.Held (T.foldl (fuseOnto isFunction) B) (T'.foldl (fuseOnto isFunction) B') := by
  induction h generalizing B B' with
  | nil => exact hB
  | cons ht _ ih => exact ih (fuseOnto_held hs isFunction hB ht)

theorem Pairs.splitWords (hs : R.strict = true) (isFunction : String → Bool) (h : R.Pairs T T') :
    R.Mets (splitWords isFunction T) (Token.splitWords isFunction T') :=
  (List.rel_reverse (foldl_fuseOnto_held hs isFunction .nil (h.splitLong isFunction))).imp
    (fun _ _ ht => ht.met)

end Words

/-- An expression that starts with the word of a block is read as one. Other tokens are evaluated one
by one, in strict mode after the words are split. -/
inductive Runs (R : Rendering) (T T' : List Token) : Prop where
  | empty (h : T.filter (fun t => !t.isNewline) = []) (h' : T'.filter (fun t => !t.isNewline) = [])
  | block {t t' : Token} {S S' : List Token} (h : T.filter (fun t => !t.isNewline) = t :: S)
      (h' : T'.filter (fun t => !t.isNewline) = t' :: S') (hb : Eval.startsBlock t = true)
      (hb' : Eval.startsBlock t' = true) (hB : R.Blocks (t :: S) (t' :: S'))
  | tokens {t t' : Token} {S S' : List Token} (h : T.filter (fun t => !t.isNewline) = t :: S)
      (h' : T'.filter (fun t => !t.isNewline) = t' :: S') (hb : Eval.startsBlock t = false)
      (hb' : Eval.startsBlock t' = false) (ht : R.Met t t') (hS : R.Mets (t :: S) (t' :: S'))
      (hs : R.strict = true → ∀ isFunction,
        R.Mets (splitWords isFunction (t :: S)) (splitWords isFunction (t' :: S')))

theorem Pair.startsBlock_eq (h : R.Pair t t') : Eval.startsBlock t = Eval.startsBlock t' := by
  simp only [Eval.startsBlock, h.isWord_eq]

/-- What is read as one expression, in a bracket or not, is evaluated alike. -/
theorem runs_of_unbroken (h : R.Spoken (unbroken T) (unbroken T')) : R.Runs T T' := by
  generalize hS : unbroken T = S at h
  generalize hS' : unbroken T' = S' at h
  rcases h with h | h
  · cases h with
    | nil => exact .empty hS hS'
    | @cons t t' S S' ht hrest =>
      have hall : R.Pairs (t :: S) (t' :: S') := .cons ht hrest
      cases hb : Eval.startsBlock t with
      | true => exact .block hS hS' hb (ht.startsBlock_eq ▸ hb) (.inl hall)
      | false =>
        exact .tokens hS hS' hb (ht.startsBlock_eq ▸ hb) ht.met hall.mets
          (fun hs isFunction => hall.splitWords hs isFunction)
  · cases h with
    | intro ht ht' _ _ hW => exact .block hS hS' ht ht' (.inr hW)

theorem unbroken_eq (h : ∀ t ∈ T, t.isNewline = false) : unbroken T = T :=
  List.filter_eq_self.mpr (fun t ht => by rw [h t ht]; rfl)

theorem Spoken.unbroken (h : R.Spoken T T') : R.Spoken (unbroken T) (Token.unbroken T') := by
  rcases h with h | h
  · exact .inl h.withoutNewlines
  · cases h with
    | intro ht ht' hn hn' hW =>
      rw [unbroken_eq hn, unbroken_eq hn']
      exact .inr (.intro ht ht' hn hn' hW)

theorem Spoken.isEmpty_eq (h : R.Spoken T T') : T.isEmpty = T'.isEmpty := by
  rcases h with h | h
  · exact h.isEmpty_eq
  · cases h
    rfl

theorem Spoken.runs (h : R.Spoken T T') : R.Runs T T' :=
  runs_of_unbroken h.unbroken

theorem Pairs.runs (h : R.Pairs T T') : R.Runs T T' :=
  Spoken.runs (.inl h)

section Operated

variable {n n' op op' g g' : Token}

theorem fuseOnto_plain (isFunction : String → Bool) (B : List Token)
    (h : t.isParenthesized = false) : fuseOnto isFunction B t = t :: B := by
  cases B with
  | nil => rfl
  | cons b B => simp [fuseOnto, h]

theorem foldl_fuseOnto_plain (isFunction : String → Bool) (B : List Token)
    (h : ∀ t ∈ T, t.isParenthesized = false) :
    T.foldl (fuseOnto isFunction) B = T.reverse ++ B := by
  induction T generalizing B with
  | nil => rfl
  | cons t T ih =>
    rw [List.foldl_cons, fuseOnto_plain isFunction B (h t List.mem_cons_self),
      ih _ (fun u hu => h u (List.mem_cons_of_mem t hu))]
    simp

theorem letters_plain {i : Int} {cs : List Char} (h : t ∈ letters i cs) :
    t.isParenthesized = false := by
  induction cs generalizing i with
  | nil => cases h
  | cons c cs ih =>
    rcases List.mem_cons.mp h with rfl | h
    · rfl
    · exact ih h

/-- An operator stands between the name and what it is combined with, so these are no call. -/
theorem splitWords_operated (isFunction : String → Bool) (hn : n.isParenthesized = false)
    (ho : op.kind = .operator) (hp : op.isParenthesized = false) (hg : g.kind ≠ .word) :
    splitWords isFunction [n, op, g] = splitLong isFunction [n] ++ [op, g] := by
  have hlong : splitLong isFunction [n, op, g] = splitLong isFunction [n] ++ [op, g] := by
    simp [splitLong, touches, hp, ho, hg]
    split <;> rfl
  have hplain : ∀ t ∈ splitLong isFunction [n] ++ [op], t.isParenthesized = false := by
    intro t ht
    rcases List.mem_append.mp ht with ht | ht
    · simp only [splitLong, touches, List.head?_nil, Option.any_none, Bool.false_and] at ht
      split at ht
      · rwa [List.mem_singleton.mp ht]
      · exact letters_plain (by simpa using ht)
    · rwa [List.mem_singleton.mp ht]
  have happ : splitLong isFunction [n] ++ [op, g] = (splitLong isFunction [n] ++ [op]) ++ [g] := by
    simp
  rw [splitWords, hlong, happ, List.foldl_append, foldl_fuseOnto_plain isFunction [] hplain]
  simp [fuseOnto, ho]

theorem letters_mets (cs : List Char) (i i' : Int) : R.Mets (letters i cs) (letters i' cs) := by
  induction cs generalizing i i' with
  | nil => exact .nil
  | cons c cs ih => exact .cons .leaf (ih _ _)

/-- A name that is combined with what is evaluated alike, wherever both stand. -/
theorem runs_operated (hn : R.Met n n') (hm : n.isName = true) (ho : R.Met op op')
    (hk : op.kind = .operator) (hg : R.Met g g') (hw : g.kind = .group ∨ g.kind = .integer) :
    R.Runs [n, op, g] [n', op', g'] := by
  have hall : R.Mets [n, op, g] [n', op', g'] := .cons hn (.cons ho (.cons hg .nil))
  have hword : n.kind = .word := kind_of_isName hm
  have hgroup : g.kind ≠ .word := by rcases hw with hw | hw <;> simp [hw]
  have hfilter : ∀ {x y z : Token}, x.kind = .word → y.kind = .operator →
      z.kind = .group ∨ z.kind = .integer →
      [x, y, z].filter (fun t => !t.isNewline) = [x, y, z] := by
    intro x y z hx hy hz
    have hline : ∀ {t : Token}, t.kind ≠ .symbol → t.isNewline = false := by
      intro t ht
      simp [isNewline, isSymbol, Token.is, ht]
    have hz' : z.kind ≠ .symbol := by rcases hz with hz | hz <;> simp [hz]
    simp [hline (t := x) (by simp [hx]), hline (t := y) (by simp [hy]), hline hz']
  have hkeep := hfilter hword hk hw
  have hkeep' := hfilter (hn.kind_eq ▸ hword) (ho.kind_eq ▸ hk) (hg.kind_eq ▸ hw)
  have hstarts : ∀ {t : Token}, t.isName = true → Eval.startsBlock t = false := by
    intro t ht
    have hnot : ∀ value ∈ keywords, t.is .word value = false :=
      fun _ hv => Likeness.not_is_keyword ht hv
    simp [Eval.startsBlock, hnot "if" (by simp [keywords]), hnot "repeat" (by simp [keywords]),
      hnot "loop" (by simp [keywords])]
  cases hn with
  | parentheses | braces | call => simp [Token.kind, fuse] at hword
  | @leaf kind value i i' s s' =>
    cases ho with
    | parentheses | braces | call => simp [Token.kind, fuse] at hk
    | leaf =>
      obtain rfl := hk
      refine .tokens hkeep hkeep' (hstarts hm) (hstarts hm) .leaf hall (fun _ isFunction => ?_)
      rw [splitWords_operated isFunction rfl rfl rfl hgroup,
        splitWords_operated isFunction rfl rfl rfl (hg.kind_eq ▸ hgroup)]
      refine List.rel_append ?_ (.cons .leaf (.cons hg .nil))
      simp only [splitLong, touches, List.head?_nil, Option.any_none, Bool.false_and, Token.kind,
        Token.value, Token.index]
      split
      · exact .cons .leaf .nil
      · simpa using letters_mets value.toList i i'

end Operated

/-- Statements that do the same. Their texts and places do not matter. -/
inductive Says (R : Rendering) : Statement → Statement → Prop where
  | assign {o o' : Origin} {n n' : Token} {v v' : List Token} {fresh constant : Bool}
      {x x' : String} (hn : n.value = n'.value) (hv : R.Runs v v') :
      Says R (.assign o n v fresh constant x) (.assign o' n' v' fresh constant x')
  | define {o o' : Origin} {n n' : Token} {names : List String} {v v' : List Token}
      {x x' : String} (hn : n.value = n'.value) (hv : R.Runs v v') :
      Says R (.define o n names v x) (.define o' n' names v' x')
  | inline {o o' : Origin} {v v' : List Token} (hv : R.Runs v v') :
      Says R (.inline o v) (.inline o' v')
  | ifThen {o o' : Origin} {k k' : Token} {c c' : List Token} {B B' : List Statement}
      {x x' : String} (hc : R.Runs c c') (hB : List.Forall₂ (Says R) B B') :
      Says R (.ifThen o k c B x) (.ifThen o' k' c' B' x')
  | elseIf {o o' : Origin} {k k' : Token} {c c' : List Token} {B B' : List Statement}
      {x x' : String} (hc : R.Runs c c') (hB : List.Forall₂ (Says R) B B') :
      Says R (.elseIf o k c B x) (.elseIf o' k' c' B' x')
  | otherwise {o o' : Origin} {k k' : Token} {B B' : List Statement}
      (hB : List.Forall₂ (Says R) B B') : Says R (.otherwise o k B) (.otherwise o' k' B')
  | loop {o o' : Origin} {k k' : Token} {B B' : List Statement}
      (hB : List.Forall₂ (Says R) B B') : Says R (.loop o k B) (.loop o' k' B')
  | repeatUntil {o o' : Origin} {k k' : Token} {c c' : List Token} {B B' : List Statement}
      {x x' : String} (hc : R.Runs c c') (hB : List.Forall₂ (Says R) B B') :
      Says R (.repeatUntil o k c B x) (.repeatUntil o' k' c' B' x')
  | repeatTimes {o o' : Origin} {k k' : Token} {c c' : List Token} {B B' : List Statement}
      {x x' : String} (hc : R.Runs c c') (hB : List.Forall₂ (Says R) B B') :
      Says R (.repeatTimes o k c B x) (.repeatTimes o' k' c' B' x')
  | repeatWith {o o' : Origin} {k k' : Token} {c c' : List Token} {n n' : Token}
      {B B' : List Statement} {x x' : String} (hc : R.Runs c c') (hn : n.value = n'.value)
      (hB : List.Forall₂ (Says R) B B') :
      Says R (.repeatWith o k c n B x) (.repeatWith o' k' c' n' B' x')
  | giveBack {o o' : Origin} {k k' : Token} {v v' : List Token} (he : v.isEmpty = v'.isEmpty)
      (hv : R.Runs v v') : Says R (.giveBack o k v) (.giveBack o' k' v')
  | leave {o o' : Origin} {k k' : Token} : Says R (.leave o k) (.leave o' k')
  | print {o o' : Origin} {k k' : Token} {x x' : String} :
      Says R (.print o k x) (.print o' k' x')
  | throw {o o' : Origin} {k k' : Token} {x x' : String} :
      Says R (.throw o k x) (.throw o' k' x')

theorem Says.kind_eq {s s' : Statement} (h : R.Says s s') : s.kind = s'.kind := by
  cases h <;> rfl

theorem Says.isCondition_eq {s s' : Statement} (h : R.Says s s') :
    s.isCondition = s'.isCondition := by
  cases h <;> rfl

end Abacus.Rendering
