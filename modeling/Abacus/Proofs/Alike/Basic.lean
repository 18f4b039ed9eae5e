import Abacus.Proofs.Reading.Blocks

/-! Tokens and statements of two sources side by side. A `Likeness` says which offsets and texts of
the two correspond; everything else of their tokens is the same, except that the left side may have
calls where the right side has a name and a bracket. -/

namespace Abacus

open Token

/-- Whether only ends of lines, backslashes and semicolons that these take away stand before a
parenthesized group. -/
def Token.meets : Nat → List Token → Bool
  | _, [] => false
  | pending, t :: rest =>
    if t.isNewline then meets pending rest
    else if t.isSymbol ";" then
      match pending with
      | 0 => false
      | pending + 1 => meets pending rest
    else if t.isSymbol "\\" then meets (pending + 1) rest
    else t.isParenthesized

/-- The fault of a `throw` with the given text. -/
def Fault.thrown (offset : Int) (text : String) (source : String) : Fault :=
  ⟨offset, if text = "" then "Error" else text, source.length⟩

structure Likeness where
  source : String
  source' : String
  strict : Bool
  strict' : Bool
  /-- Where corresponding tokens start. -/
  starts : Int → Int → Prop
  /-- Where corresponding tokens stop. -/
  stops : Int → Int → Prop
  /-- Where corresponding faults may point. -/
  spot : Int → Int → Prop
  words : Token → Token → Prop
  faults : Fault → Fault → Prop
  /-- Whether corresponding texts are the same. -/
  verbatim : Prop
  /-- Whether calls on the left are a name and a bracket on the right. -/
  loose : Prop
  /-- Whether it matters what the right side does when the left side fails. -/
  lax : Prop
  spot_of_starts : ∀ {i i'}, starts i i' → spot i i'
  spot_of_stops : ∀ {i i'}, stops i i' → spot i i'
  slices : verbatim → ∀ {i i' j j'}, spot i i' → spot j j' →
    Text.slice source i j = Text.slice source' i' j'
  plain : ∀ {i i' : Int} {message : String} {n n' : Int}, spot i i' → (verbatim → n = n') →
    faults ⟨i, message, n⟩ ⟨i', message, n'⟩
  thrown : ∀ {t t' : Token} {i i' j j' : Int}, words t t' → t.is .word "throw" = true →
    t'.is .word "throw" = true → spot i i' → spot t.index t'.index → spot j j' →
    faults (.thrown t.index (Text.slice source i j) (Text.slice source t.index j))
      (.thrown t'.index (Text.slice source' i' j') (Text.slice source' t'.index j'))
  refused : ∀ {t t' : Token} {text text' : String}, words t t' → t.isName = true →
    t.value = "π" → t'.value = "π" → spot t.index t'.index → (verbatim → text = text') →
    faults (t.fault ("π ≠ " ++ text)) (t'.fault ("π ≠ " ++ text'))
  same_mode : ¬ loose → strict = strict'
  loose_mode : loose → strict = false ∧ strict' = true ∧ lax

namespace Likeness

def Text (L : Likeness) (s s' : String) : Prop :=
  L.verbatim → s = s'

/-- Texts of tokens; a comma is told from the rest. -/
structure Label (L : Likeness) (v v' : String) : Prop where
  same : L.verbatim → v = v'
  comma : v = "," ↔ v' = ","

inductive Leaf (L : Likeness) : Token → Token → Prop where
  | intro {kind : Kind} {value : String} {i i' s s' : Int} (hi : L.starts i i') (hs : L.stops s s')
      (hw : kind = .word → L.words (.leaf kind value i s) (.leaf kind value i' s')) :
      Leaf L (.leaf kind value i s) (.leaf kind value i' s')

/-- The brackets of a group. -/
inductive Edge (L : Likeness) : Token → Token → Prop where
  | intro {kind : Kind} {value : String} {i i' s s' : Int} (hi : L.spot i i') (hs : L.spot s s') :
      Edge L (.leaf kind value i s) (.leaf kind value i' s')

/-- Lists of tokens that correspond. Where calls are loose, a name that is none has one character,
and no bracket can come to stand behind it. -/
inductive Tokens (L : Likeness) : List Token → List Token → Prop where
  | nil : Tokens L [] []
  | leaf {t t' : Token} {T T' : List Token} (h : L.Leaf t t')
      (hn : L.loose → t.isName = true → t.value.length = 1 ∧ meets 0 T = false)
      (hT : Tokens L T T') : Tokens L (t :: T) (t' :: T')
  | group {v v' : String} {i i' s s' : Int} {C C' T T' : List Token} {o o' c c' : Token}
      (hv : L.Label v v') (hi : L.spot i i') (hb : o.value ≠ "(" → L.starts i i')
      (hs : L.stops s s') (ho : L.Edge o o') (hc : L.Edge c c') (hC : Tokens L C C')
      (hT : Tokens L T T') :
      Tokens L (.group .group v i s C o c :: T) (.group .group v' i' s' C' o' c' :: T')
  | call {n n' a a' : Token} {T T' : List Token} (hl : ¬ L.loose) (hn : L.Leaf n n')
      (hv : L.Label (n.value ++ a.value) (n'.value ++ a'.value)) (ha : Tokens L [a] [a'])
      (hp : a.isParenthesized = true) (hT : Tokens L T T') :
      Tokens L (fuse n a :: T) (fuse n' a' :: T')
  | loose {n n' a a' : Token} {T T' : List Token} (hl : L.loose) (hn : L.Leaf n n')
      (hm : n.isName = true) (hv : n.value ++ a.value ≠ ",") (ha : Tokens L [a] [a'])
      (hp : a.isParenthesized = true) (ht : n'.stop = a'.index) (hT : Tokens L T T') :
      Tokens L (fuse n a :: T) (n' :: a' :: T')

structure Span (L : Likeness) (o o' : Origin) : Prop where
  index : L.spot o.index o'.index
  stop : L.spot o.stop o'.stop
  source : L.Text o.source o'.source

inductive Statements (L : Likeness) : List Statement → List Statement → Prop where
  | nil : Statements L [] []
  | assign {o o' : Origin} {n n' : Token} {v v' : List Token} {fresh constant : Bool}
      {x x' : String} {B B' : List Statement} (ho : L.Span o o') (hn : L.Leaf n n')
      (hm : n.isName = true) (hv : L.Tokens v v') (hx : L.Text x x') (hB : Statements L B B') :
      Statements L (.assign o n v fresh constant x :: B) (.assign o' n' v' fresh constant x' :: B')
  | define {o o' : Origin} {n n' : Token} {names : List String} {v v' : List Token} {x x' : String}
      {B B' : List Statement} (ho : L.Span o o') (hn : L.Leaf n n')
      (hm : L.loose → n.isName = true) (hv : L.Tokens v v') (hx : L.Text x x')
      (hB : Statements L B B') :
      Statements L (.define o n names v x :: B) (.define o' n' names v' x' :: B')
  | inline {o o' : Origin} {v v' : List Token} {B B' : List Statement} (ho : L.Span o o')
      (hv : L.Tokens v v') (hB : Statements L B B') :
      Statements L (.inline o v :: B) (.inline o' v' :: B')
  | ifThen {o o' : Origin} {k k' : Token} {c c' : List Token} {body body' : List Statement}
      {x x' : String} {B B' : List Statement} (ho : L.Span o o') (hk : L.Leaf k k')
      (hc : L.Tokens c c') (hb : Statements L body body') (hx : L.Text x x')
      (hB : Statements L B B') :
      Statements L (.ifThen o k c body x :: B) (.ifThen o' k' c' body' x' :: B')
  | elseIf {o o' : Origin} {k k' : Token} {c c' : List Token} {body body' : List Statement}
      {x x' : String} {B B' : List Statement} (ho : L.Span o o') (hk : L.Leaf k k')
      (hc : L.Tokens c c') (hb : Statements L body body') (hx : L.Text x x')
      (hB : Statements L B B') :
      Statements L (.elseIf o k c body x :: B) (.elseIf o' k' c' body' x' :: B')
  | otherwise {o o' : Origin} {k k' : Token} {body body' B B' : List Statement}
      (ho : L.Span o o') (hk : L.Leaf k k') (hb : Statements L body body')
      (hB : Statements L B B') :
      Statements L (.otherwise o k body :: B) (.otherwise o' k' body' :: B')
  | loop {o o' : Origin} {k k' : Token} {body body' B B' : List Statement} (ho : L.Span o o')
      (hk : L.Leaf k k') (hb : Statements L body body') (hB : Statements L B B') :
      Statements L (.loop o k body :: B) (.loop o' k' body' :: B')
  | repeatUntil {o o' : Origin} {k k' : Token} {c c' : List Token} {body body' : List Statement}
      {x x' : String} {B B' : List Statement} (ho : L.Span o o') (hk : L.Leaf k k')
      (hc : L.Tokens c c') (hb : Statements L body body') (hx : L.Text x x')
      (hB : Statements L B B') :
      Statements L (.repeatUntil o k c body x :: B) (.repeatUntil o' k' c' body' x' :: B')
  | repeatTimes {o o' : Origin} {k k' : Token} {c c' : List Token} {body body' : List Statement}
      {x x' : String} {B B' : List Statement} (ho : L.Span o o') (hk : L.Leaf k k')
      (hc : L.Tokens c c') (hb : Statements L body body') (hx : L.Text x x')
      (hB : Statements L B B') :
      Statements L (.repeatTimes o k c body x :: B) (.repeatTimes o' k' c' body' x' :: B')
  | repeatWith {o o' : Origin} {k k' : Token} {c c' : List Token} {n n' : Token}
      {body body' : List Statement} {x x' : String} {B B' : List Statement} (ho : L.Span o o')
      (hk : L.Leaf k k') (hc : L.Tokens c c') (hn : L.Leaf n n') (hm : n.isName = true)
      (hb : Statements L body body') (hx : L.Text x x') (hB : Statements L B B') :
      Statements L (.repeatWith o k c n body x :: B) (.repeatWith o' k' c' n' body' x' :: B')
  | giveBack {o o' : Origin} {k k' : Token} {v v' : List Token} {B B' : List Statement}
      (ho : L.Span o o') (hk : L.Leaf k k') (hv : L.Tokens v v') (hB : Statements L B B') :
      Statements L (.giveBack o k v :: B) (.giveBack o' k' v' :: B')
  | leave {o o' : Origin} {k k' : Token} {B B' : List Statement} (ho : L.Span o o')
      (hk : L.Leaf k k') (hB : Statements L B B') :
      Statements L (.leave o k :: B) (.leave o' k' :: B')
  | print {o o' : Origin} {k k' : Token} {x x' : String} {B B' : List Statement}
      (ho : L.Span o o') (hk : L.Leaf k k') (hx : L.Text x x') (hB : Statements L B B') :
      Statements L (.print o k x :: B) (.print o' k' x' :: B')
  | throw {o o' : Origin} {k k' : Token} {x x' : String} {B B' : List Statement}
      (ho : L.Span o o') (hk : L.Leaf k k') (hx : L.Text x x')
      (hf : L.faults (.thrown o.index x o.source) (.thrown o'.index x' o'.source))
      (hB : Statements L B B') :
      Statements L (.throw o k x :: B) (.throw o' k' x' :: B')

/-- One message at places that correspond. -/
structure Blames (L : Likeness) (f g : Fault) : Prop where
  offset : L.spot f.offset g.offset
  message : f.message = g.message
  length : L.verbatim → f.length = g.length

theorem Blames.faults {L : Likeness} {f g : Fault} (h : L.Blames f g) : L.faults f g := by
  obtain ⟨i, message, n⟩ := f
  obtain ⟨i', _, n'⟩ := g
  obtain ⟨ho, rfl, hl⟩ := h
  exact L.plain ho hl

/-- Answers that correspond. -/
inductive Agree {γ δ : Type} (L : Likeness) (R : γ → δ → Prop) :
    Except Fault γ → Except Fault δ → Prop where
  | ok {x : γ} {y : δ} (h : R x y) : Agree L R (.ok x) (.ok y)
  | error {f g : Fault} (h : L.Blames f g) : Agree L R (.error f) (.error g)
  | lost {f : Fault} (h : L.lax) (y : Except Fault δ) : Agree L R (.error f) y

theorem Agree.bind {γ δ ε ζ : Type} {L : Likeness} {R : γ → δ → Prop} {S : ε → ζ → Prop}
    {x : Except Fault γ} {y : Except Fault δ} {f : γ → Except Fault ε} {g : δ → Except Fault ζ}
    (h : L.Agree R x y) (hf : ∀ v w, R v w → L.Agree S (f v) (g w)) :
    L.Agree S (x.bind f) (y.bind g) := by
  cases h with
  | ok h => exact hf _ _ h
  | error h => exact .error h
  | lost h _ => exact .lost h _

theorem Agree.map {γ δ ε ζ : Type} {L : Likeness} {R : γ → δ → Prop} {S : ε → ζ → Prop}
    {x : Except Fault γ} {y : Except Fault δ} {f : γ → ε} {g : δ → ζ} (h : L.Agree R x y)
    (hf : ∀ v w, R v w → S (f v) (g w)) : L.Agree S (x.map f) (y.map g) := by
  cases h with
  | ok h => exact .ok (hf _ _ h)
  | error h => exact .error h
  | lost h _ => exact .lost h _

/-- Tokens that correspond one to one. -/
inductive Twin (L : Likeness) : Token → Token → Prop where
  | leaf {t t' : Token} (h : L.Leaf t t') : Twin L t t'
  | group {v v' : String} {i i' s s' : Int} {C C' : List Token} {o o' c c' : Token}
      (hv : L.Label v v') (hi : L.spot i i') (hb : o.value ≠ "(" → L.starts i i')
      (hs : L.stops s s') (ho : L.Edge o o') (hc : L.Edge c c') (hC : L.Tokens C C') :
      Twin L (.group .group v i s C o c) (.group .group v' i' s' C' o' c')
  | call {n n' a a' : Token} (hl : ¬ L.loose) (hn : L.Leaf n n')
      (hv : L.Label (n.value ++ a.value) (n'.value ++ a'.value)) (ha : L.Tokens [a] [a'])
      (hp : a.isParenthesized = true) : Twin L (fuse n a) (fuse n' a')

variable {L : Likeness} {t t' : Token} {T T' : List Token}

namespace Leaf

theorem kind_eq (h : L.Leaf t t') : t.kind = t'.kind := by
  cases h
  rfl

theorem value_eq (h : L.Leaf t t') : t.value = t'.value := by
  cases h
  rfl

theorem starts_index (h : L.Leaf t t') : L.starts t.index t'.index := by
  cases h
  assumption

theorem spot_index (h : L.Leaf t t') : L.spot t.index t'.index :=
  L.spot_of_starts h.starts_index

theorem stops_stop (h : L.Leaf t t') : L.stops t.stop t'.stop := by
  cases h
  assumption

theorem spot_stop (h : L.Leaf t t') : L.spot t.stop t'.stop :=
  L.spot_of_stops h.stops_stop

theorem words_of_kind (h : L.Leaf t t') (hk : t.kind = .word) : L.words t t' := by
  cases h with
  | intro hi hs hw => exact hw hk

theorem is_eq (h : L.Leaf t t') (kind : Kind) (value : String) :
    t.is kind value = t'.is kind value := by
  simp only [Token.is, h.kind_eq, h.value_eq]

theorem isName_eq (h : L.Leaf t t') : t.isName = t'.isName := by
  simp only [Token.isName, h.kind_eq, h.value_eq]

theorem length_eq (h : L.Leaf t t') : t.length = t'.length := by
  simp only [Token.length, h.value_eq]

theorem fault_like (h : L.Leaf t t') (message : String) :
    L.Blames (t.fault message) (t'.fault message) :=
  ⟨h.spot_index, rfl, fun _ => h.length_eq⟩

theorem not_parenthesized (h : L.Leaf t t') : t.isParenthesized = false := by
  cases h
  rfl

theorem not_block (h : L.Leaf t t') : t.isBlock = false := by
  cases h
  rfl

theorem not_call (h : L.Leaf t t') :
    (∀ kind value index stop n a, t ≠ .call kind value index stop n a) ∧
      ∀ kind value index stop n a, t' ≠ .call kind value index stop n a := by
  cases h
  exact ⟨nofun, nofun⟩

theorem edge (h : L.Leaf t t') : L.Edge t t' := by
  cases h with
  | intro hi hs _ => exact .intro (L.spot_of_starts hi) (L.spot_of_stops hs)

end Leaf

theorem Edge.value_eq (h : L.Edge t t') : t.value = t'.value := by
  cases h
  rfl

theorem Edge.spot_index (h : L.Edge t t') : L.spot t.index t'.index := by
  cases h
  assumption

theorem Tokens.twin (h : L.Tokens [t] [t']) : L.Twin t t' := by
  cases h with
  | leaf h _ _ => exact .leaf h
  | group hv hi hb hs ho hc hC _ => exact .group hv hi hb hs ho hc hC
  | call hl hn hv ha hp _ => exact .call hl hn hv ha hp

/-- The first tokens of two lists that correspond. -/
theorem Tokens.uncons (h : L.Tokens (t :: T) T') :
    (∃ u U, T' = u :: U ∧ L.Twin t u ∧ L.Tokens T U ∧
      (L.loose → t.isName = true → t.value.length = 1 ∧ meets 0 T = false)) ∨
    ∃ n a n' a' U, L.loose ∧ t = fuse n a ∧ T' = n' :: a' :: U ∧ L.Leaf n n' ∧
      n.isName = true ∧ L.Twin a a' ∧ a.isParenthesized = true ∧ L.Tokens T U := by
  cases h with
  | leaf h hn hT => exact .inl ⟨_, _, rfl, .leaf h, hT, hn⟩
  | group hv hi hb hs ho hc hC hT =>
    refine .inl ⟨_, _, rfl, .group hv hi hb hs ho hc hC, hT, fun _ hn => ?_⟩
    simp [isName, kind] at hn
  | call hl hn hv ha hp hT =>
    exact .inl ⟨_, _, rfl, .call hl hn hv ha hp, hT, fun hh => absurd hh hl⟩
  | loose hl hn hm hv ha hp ht hT =>
    exact .inr ⟨_, _, _, _, _, hl, rfl, rfl, hn, hm, ha.twin, hp, hT⟩

namespace Twin

/-- A token of one of the kinds that the texts tell apart is a leaf. -/
theorem is_eq (h : L.Twin t t') {kind : Kind} (hg : kind ≠ .group) (hc : kind ≠ .call)
    (value : String) : t.is kind value = t'.is kind value := by
  cases h with
  | leaf h => exact h.is_eq kind value
  | group hv hi hb hs ho hc hC => simp [Token.is, Token.kind, beq_false_of_ne hg.symm]
  | call hl hn hv ha hp => simp [Token.is, Token.kind, fuse, beq_false_of_ne hc.symm]

theorem isSymbol_eq (h : L.Twin t t') (value : String) : t.isSymbol value = t'.isSymbol value :=
  h.is_eq (by simp) (by simp) value

theorem isTerminator_eq (h : L.Twin t t') : t.isTerminator = t'.isTerminator := by
  simp only [isTerminator, h.isSymbol_eq]

theorem kind_eq (h : L.Twin t t') : t.kind = t'.kind := by
  cases h with
  | leaf h => exact h.kind_eq
  | group hv hi hb hs ho hc hC => rfl
  | call hl hn hv ha hp => rfl

theorem isValue_eq (h : L.Twin t t') : t.isValue = t'.isValue := by
  simp only [isValue, h.kind_eq]

theorem isName_eq (h : L.Twin t t') : t.isName = t'.isName := by
  cases h with
  | leaf h => exact h.isName_eq
  | group hv hi hb hs ho hc hC => rfl
  | call hl hn hv ha hp => rfl

theorem inside_eq (h : L.Twin t t') (bracket : String) :
    (t.inside? bracket).isSome = (t'.inside? bracket).isSome := by
  cases h with
  | leaf h =>
    cases h
    rfl
  | group hv hi hb hs ho hc hC =>
    simp only [inside?, ho.value_eq]
    split <;> rfl
  | call hl hn hv ha hp => rfl

theorem isBlock_eq (h : L.Twin t t') : t.isBlock = t'.isBlock :=
  h.inside_eq _

theorem isParenthesized_eq (h : L.Twin t t') : t.isParenthesized = t'.isParenthesized :=
  h.inside_eq _

theorem spot_index (h : L.Twin t t') : L.spot t.index t'.index := by
  cases h with
  | leaf h => exact h.spot_index
  | group hv hi hb hs ho hc hC => exact hi
  | call hl hn hv ha hp => exact hn.spot_index

theorem stops_stop (h : L.Twin t t') : L.stops t.stop t'.stop := by
  cases h with
  | leaf h => exact h.stops_stop
  | group hv hi hb hs ho hc hC => exact hs
  | call hl hn hv ha hp =>
    cases ha with
    | leaf h _ _ => exact h.stops_stop
    | group _ _ _ hs _ _ _ _ => exact hs
    | call _ hn _ ha hp' _ => simp [isParenthesized, inside?, fuse] at hp

theorem spot_stop (h : L.Twin t t') : L.spot t.stop t'.stop :=
  L.spot_of_stops h.stops_stop

theorem children_tokens (h : L.Twin t t') : L.Tokens t.children t'.children := by
  cases h with
  | leaf h =>
    cases h
    exact .nil
  | group hv hi hb hs ho hc hC => exact hC
  | call hl hn hv ha hp => exact .nil

theorem label (h : L.Twin t t') : L.Label t.value t'.value := by
  cases h with
  | leaf h => exact ⟨fun _ => h.value_eq, by rw [h.value_eq]⟩
  | group hv hi hb hs ho hc hC => exact hv
  | call hl hn hv ha hp => exact hv

theorem length_eq (h : L.Twin t t') (hl : L.verbatim) : t.length = t'.length := by
  simp only [Token.length, h.label.same hl]

theorem fault_like (h : L.Twin t t') (message : String) :
    L.Blames (t.fault message) (t'.fault message) :=
  ⟨h.spot_index, rfl, h.length_eq⟩

/-- What is neither a bracket nor a call is a leaf. -/
theorem leaf_of_kind (h : L.Twin t t') (hg : t.kind ≠ .group) (hc : t.kind ≠ .call) :
    L.Leaf t t' := by
  cases h with
  | leaf h => exact h
  | group hv hi hb hs ho hc hC => exact absurd rfl hg
  | call hl hn hv ha hp => exact absurd rfl hc

theorem leaf_of_is (h : L.Twin t t') {kind : Kind} {value : String} (hi : t.is kind value = true)
    (hg : kind ≠ .group) (hc : kind ≠ .call) : L.Leaf t t' := by
  simp only [Token.is, Bool.and_eq_true, beq_iff_eq] at hi
  exact h.leaf_of_kind (hi.1 ▸ hg) (hi.1 ▸ hc)

theorem leaf_of_isName (h : L.Twin t t') (hn : t.isName = true) : L.Leaf t t' := by
  have hk := kind_of_isName hn
  exact h.leaf_of_kind (by simp [hk]) (by simp [hk])

end Twin

end Likeness

end Abacus
