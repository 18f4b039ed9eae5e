import Abacus.Eval.Expression
import Abacus.Proofs.Arguments
import Abacus.Proofs.Reading.Blocks
import Abacus.Proofs.Simulation.Basic

/-! Two renderings of a program, token by token. Tokens that correspond differ in their places, and
blocks may be cast in another way: those in braces, and expressions that are read as blocks. -/

namespace Abacus

open Token

variable {γ δ ε ζ : Type}

/-- Both answers are faults, or what they hold corresponds. -/
abbrev SameAnswer (S : γ → δ → Prop) : Except Fault γ → Except Fault δ → Prop :=
  SameResult (fun _ _ => True) S

namespace SameAnswer

variable {S : γ → δ → Prop} {U : ε → ζ → Prop} {x : Except Fault γ} {y : Except Fault δ}

theorem fault (f g : Fault) : SameAnswer S (.error f) (.error g) :=
  .error trivial

theorem bind (h : SameAnswer S x y) {f : γ → Except Fault ε} {g : δ → Except Fault ζ}
    (hf : ∀ v w, S v w → SameAnswer U (f v) (g w)) : SameAnswer U (x.bind f) (y.bind g) := by
  cases h with
  | ok h => exact hf _ _ h
  | error _ => exact .fault _ _

theorem map (h : SameAnswer S x y) {f : γ → ε} {g : δ → ζ} (hf : ∀ v w, S v w → U (f v) (g w)) :
    SameAnswer U (x.map f) (y.map g) := by
  cases h with
  | ok h => exact .ok (hf _ _ h)
  | error _ => exact .fault _ _

end SameAnswer

/-- Tokens without the ends of lines between them. -/
abbrev Token.unbroken (T : List Token) : List Token :=
  T.filter (fun t => !t.isNewline)

structure Rendering where
  source : String
  source' : String
  strict : Bool
  /-- Where corresponding words and their letters stop. -/
  ends : Int → Int → Prop
  /-- Where corresponding parentheses open. -/
  begins : Int → Int → Prop
  /-- Blocks that are cast in another way. -/
  recast : List Token → List Token → Prop
  touch : ∀ {s s' i i' : Int}, ends s s' → begins i i' → (s = i ↔ s' = i')

namespace Rendering

/-- Expressions that start with the word of a block and are cast in another way. -/
inductive Bare (R : Rendering) : List Token → List Token → Prop where
  | intro {t t' u u' : Token} {W W' : List Token} (ht : Eval.startsBlock t = true)
      (ht' : Eval.startsBlock t' = true) (hn : ∀ x ∈ t :: u :: W, x.isNewline = false)
      (hn' : ∀ x ∈ t' :: u' :: W', x.isNewline = false)
      (h : R.recast (t :: u :: W) (t' :: u' :: W')) :
      Bare R (t :: u :: W) (t' :: u' :: W')

inductive Leaf (R : Rendering) : Token → Token → Prop where
  | intro {kind : Kind} {value : String} {i i' s s' : Int}
      (hw : kind = .word → R.ends s s' ∧
        ∀ j : Nat, 0 < j → j ≤ value.length → R.ends (i + j) (i' + j)) :
      Leaf R (.leaf kind value i s) (.leaf kind value i' s')

/-- The texts of brackets and calls differ, but a comma is told from the rest. -/
inductive Pair (R : Rendering) : Token → Token → Prop where
  | leaf {t t' : Token} (h : R.Leaf t t') : Pair R t t'
  | parentheses {v v' : String} {i i' s s' : Int} {C C' : List Token} {o o' c c' : Token}
      (hv : v = "," ↔ v' = ",") (ho : o.value = "(") (ho' : o'.value = "(") (hi : R.begins i i')
      (hC : List.Forall₂ (Pair R) C C') :
      Pair R (.group .group v i s C o c) (.group .group v' i' s' C' o' c')
  | braces {v v' : String} {i i' s s' : Int} {C C' : List Token} {o o' c c' : Token}
      (hv : v = "," ↔ v' = ",") (ho : o.value = "\x7b") (ho' : o'.value = "\x7b")
      (hC : List.Forall₂ (Pair R) C C') :
      Pair R (.group .group v i s C o c) (.group .group v' i' s' C' o' c')
  | recast {v v' : String} {i i' s s' : Int} {C C' : List Token} {o o' c c' : Token}
      (hv : v = "," ↔ v' = ",") (ho : o.value = "\x7b") (ho' : o'.value = "\x7b")
      (hC : R.recast C C') :
      Pair R (.group .group v i s C o c) (.group .group v' i' s' C' o' c')
  /-- In strict mode the bracket may hold the arguments of a call. -/
  | bare {v v' : String} {i i' s s' : Int} {C C' W W' : List Token} {Y Y' : List (List Token)}
      {o o' c c' : Token} (hv : v = "," ↔ v' = ",") (ho : o.value = "(") (ho' : o'.value = "(")
      (hi : R.begins i i') (hC : R.Bare (unbroken C) (unbroken C'))
      (hs : R.strict = true → CommaJoined (W :: Y) (unbroken C) ∧
        CommaJoined (W' :: Y') (unbroken C') ∧ R.Bare W W')
      (hY : List.Forall₂ (List.Forall₂ (Pair R)) Y Y') :
      Pair R (.group .group v i s C o c) (.group .group v' i' s' C' o' c')
  | call {n n' a a' : Token} (hv : n.value ++ a.value = "," ↔ n'.value ++ a'.value = ",")
      (hn : R.Leaf n n') (hp : a.isParenthesized = true) (hp' : a'.isParenthesized = true)
      (hC : List.Forall₂ (Pair R) a.children a'.children) : Pair R (fuse n a) (fuse n' a')
  | bareCall {n n' a a' : Token} {W W' : List Token} {X X' Y Y' : List (List Token)}
      (hv : n.value ++ a.value = "," ↔ n'.value ++ a'.value = ",") (hn : R.Leaf n n')
      (hp : a.isParenthesized = true) (hp' : a'.isParenthesized = true)
      (hC : CommaJoined (X ++ W :: Y) (unbroken a.children))
      (hC' : CommaJoined (X' ++ W' :: Y') (unbroken a'.children))
      (hX : List.Forall₂ (List.Forall₂ (Pair R)) X X') (hW : R.Bare W W')
      (hY : List.Forall₂ (List.Forall₂ (Pair R)) Y Y') : Pair R (fuse n a) (fuse n' a')

abbrev Pairs (R : Rendering) : List Token → List Token → Prop :=
  List.Forall₂ R.Pair

/-- Lists that are read as blocks. -/
def Blocks (R : Rendering) (C C' : List Token) : Prop :=
  R.Pairs C C' ∨ R.recast C C'

/-- Tokens that are read as one expression. -/
def Spoken (R : Rendering) (T T' : List Token) : Prop :=
  R.Pairs T T' ∨ R.Bare T T'

/-- Brackets that hold arguments. -/
inductive Listed (R : Rendering) (C C' : List Token) : Prop where
  | pairs (h : R.Pairs C C')
  | bare {W W' : List Token} {X X' Y Y' : List (List Token)}
      (hC : CommaJoined (X ++ W :: Y) (unbroken C))
      (hC' : CommaJoined (X' ++ W' :: Y') (unbroken C')) (hX : List.Forall₂ R.Pairs X X')
      (hW : R.Bare W W') (hY : List.Forall₂ R.Pairs Y Y')

variable {R : Rendering} {t t' : Token} {T T' : List Token}

namespace Leaf

theorem kind_eq (h : R.Leaf t t') : t.kind = t'.kind := by
  cases h
  rfl

theorem value_eq (h : R.Leaf t t') : t.value = t'.value := by
  cases h
  rfl

theorem is_eq (h : R.Leaf t t') (kind : Kind) (value : String) :
    t.is kind value = t'.is kind value := by
  simp only [Token.is, h.kind_eq, h.value_eq]

theorem isName_eq (h : R.Leaf t t') : t.isName = t'.isName := by
  simp only [isName, h.kind_eq, h.value_eq]

theorem inside_none (h : R.Leaf t t') (bracket : String) :
    t.inside? bracket = none ∧ t'.inside? bracket = none := by
  cases h
  exact ⟨rfl, rfl⟩

theorem ends (h : R.Leaf t t') (hk : t.kind = .word) : R.ends t.stop t'.stop := by
  cases h with
  | intro hw => exact (hw hk).1

/-- What is no word may stand anywhere. -/
theorem of_kind {kind : Kind} (hk : kind ≠ .word) (value : String) (i i' s s' : Int) :
    R.Leaf (.leaf kind value i s) (.leaf kind value i' s') :=
  .intro (fun hw => absurd hw hk)

end Leaf

namespace Pair

theorem kind_eq (h : R.Pair t t') : t.kind = t'.kind := by
  cases h with
  | leaf h => exact h.kind_eq
  | parentheses | braces | recast | bare | call | bareCall => rfl

/-- A token of one of the kinds that the texts tell apart is a leaf. -/
theorem is_eq (h : R.Pair t t') {kind : Kind} (hg : kind ≠ .group) (hc : kind ≠ .call)
    (value : String) : t.is kind value = t'.is kind value := by
  cases h with
  | leaf h => exact h.is_eq kind value
  | parentheses | braces | recast | bare => simp [Token.is, Token.kind, beq_false_of_ne hg.symm]
  | call | bareCall => simp [Token.is, Token.kind, fuse, beq_false_of_ne hc.symm]

theorem isWord_eq (h : R.Pair t t') (value : String) : t.is .word value = t'.is .word value :=
  h.is_eq (by simp) (by simp) value

theorem isSymbol_eq (h : R.Pair t t') (value : String) : t.isSymbol value = t'.isSymbol value :=
  h.is_eq (by simp) (by simp) value

theorem isNewline_eq (h : R.Pair t t') : t.isNewline = t'.isNewline :=
  h.isSymbol_eq "\n"

theorem isTerminator_eq (h : R.Pair t t') : t.isTerminator = t'.isTerminator := by
  simp only [isTerminator, h.isSymbol_eq]

theorem isValue_eq (h : R.Pair t t') : t.isValue = t'.isValue := by
  simp only [isValue, h.kind_eq]

theorem isName_eq (h : R.Pair t t') : t.isName = t'.isName := by
  cases h with
  | leaf h => exact h.isName_eq
  | parentheses | braces | recast | bare | call | bareCall => rfl

theorem inside_eq (h : R.Pair t t') (bracket : String) :
    (t.inside? bracket).isSome = (t'.inside? bracket).isSome := by
  cases h with
  | leaf h => rw [(h.inside_none bracket).1, (h.inside_none bracket).2]
  | parentheses _ ho ho' | braces _ ho ho' | recast _ ho ho' | bare _ ho ho' =>
    simp only [inside?, ho, ho']
    split <;> rfl
  | call | bareCall => rfl

theorem isBlock_eq (h : R.Pair t t') : t.isBlock = t'.isBlock :=
  h.inside_eq _

theorem isParenthesized_eq (h : R.Pair t t') : t.isParenthesized = t'.isParenthesized :=
  h.inside_eq _

/-- What is neither a bracket nor a call is a leaf. -/
theorem leaf_of_kind (h : R.Pair t t') (hg : t.kind ≠ .group) (hc : t.kind ≠ .call) :
    R.Leaf t t' := by
  cases h with
  | leaf h => exact h
  | parentheses | braces | recast | bare => exact absurd rfl hg
  | call | bareCall => exact absurd rfl hc

theorem leaf_of_isName (h : R.Pair t t') (hn : t.isName = true) : R.Leaf t t' := by
  have hk := kind_of_isName hn
  exact h.leaf_of_kind (by simp [hk]) (by simp [hk])

theorem comma_iff (h : R.Pair t t') : t.value = "," ↔ t'.value = "," := by
  cases h with
  | leaf h => rw [h.value_eq]
  | parentheses hv | braces hv | recast hv | bare hv | call hv | bareCall hv => exact hv

theorem value_of_kind (h : R.Pair t t') (hg : t.kind ≠ .group) (hc : t.kind ≠ .call) :
    t.value = t'.value :=
  (h.leaf_of_kind hg hc).value_eq

/-- The places where parentheses open correspond. -/
theorem opens (h : R.Pair t t') (hp : t.isParenthesized = true) :
    R.begins t.index t'.index ∧ t.kind = .group := by
  cases h with
  | leaf h => simp [isParenthesized, (h.inside_none "(").1] at hp
  | parentheses _ _ _ hi _ => exact ⟨hi, rfl⟩
  | braces _ ho | recast _ ho => simp [isParenthesized, inside?, ho] at hp
  | bare _ _ _ hi _ _ _ => exact ⟨hi, rfl⟩
  | call | bareCall => simp [isParenthesized, inside?, fuse] at hp

/-- In strict mode what is in parentheses may be the arguments of a call. -/
theorem listed (h : R.Pair t t') (hp : t.isParenthesized = true) (hs : R.strict = true) :
    R.Listed t.children t'.children := by
  cases h with
  | leaf h => simp [isParenthesized, (h.inside_none "(").1] at hp
  | parentheses _ _ _ _ hC => exact .pairs hC
  | braces _ ho | recast _ ho => simp [isParenthesized, inside?, ho] at hp
  | bare _ _ _ _ _ hjoined hY =>
    obtain ⟨hC, hC', hW⟩ := hjoined hs
    exact .bare (X := []) hC hC' .nil hW hY
  | call | bareCall => simp [isParenthesized, inside?, fuse] at hp

theorem blocks (h : R.Pair t t') (hb : t.isBlock = true) : R.Blocks t.children t'.children := by
  cases h with
  | leaf h => simp [isBlock, (h.inside_none "\x7b").1] at hb
  | parentheses _ ho | bare _ ho => simp [isBlock, inside?, ho] at hb
  | braces _ _ _ hC => exact .inl hC
  | recast _ _ _ hC => exact .inr hC
  | call | bareCall => simp [isBlock, inside?, fuse] at hb

end Pair

namespace Pairs

theorem isEmpty_eq (h : R.Pairs T T') : T.isEmpty = T'.isEmpty := by
  cases h <;> rfl

/-- Tokens that are told apart by what corresponding tokens share. -/
theorem filter {p : Token → Bool} (hp : ∀ {t t'}, R.Pair t t' → p t = p t') (h : R.Pairs T T') :
    R.Pairs (T.filter p) (T'.filter p) := by
  induction h with
  | nil => exact .nil
  | cons ht _ ih =>
    simp only [List.filter_cons, ← hp ht]
    split
    · exact .cons ht ih
    · exact ih

theorem withoutNewlines (h : R.Pairs T T') :
    R.Pairs (T.filter (fun t => !t.isNewline)) (T'.filter (fun t => !t.isNewline)) :=
  h.filter (fun ht => by rw [ht.isNewline_eq])

theorem withoutTerminators (h : R.Pairs T T') :
    R.Pairs (T.filter (fun t => !t.isTerminator)) (T'.filter (fun t => !t.isTerminator)) :=
  h.filter (fun ht => by rw [ht.isTerminator_eq])

end Pairs

end Rendering

end Abacus
