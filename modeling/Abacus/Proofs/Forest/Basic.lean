import Abacus.Statement.Parse
import Mathlib.Order.Nat

/-! Places of tokens. In a script the tokens of one list follow each other, and those inside a
bracket lie inside it. So no two tokens start at one place, and a place tells the list in which a
token stands. -/

namespace Abacus

/-- The tokens between the brackets of a group or a call. -/
def Token.contents : Token → List Token
  | .leaf .. => []
  | .group _ _ _ _ children _ _ => children
  | .call _ _ _ _ _ arguments => arguments.children

theorem Token.kind_of_isName {t : Token} (h : t.isName = true) : t.kind = .word := by
  simp only [isName, Bool.and_eq_true, beq_iff_eq] at h
  exact h.1

def Token.Before (s t : Token) : Prop :=
  s.stop ≤ t.index

/-- A token that covers what is inside it. -/
inductive Token.Placed : Token → Prop where
  | leaf {kind : Kind} {value : String} {index stop : Int} (h : index < stop) :
      Placed (.leaf kind value index stop)
  | group {value : String} {index stop : Int} {children : List Token} {opener closer : Token}
      (h : index < stop) (hc : ∀ c ∈ children, Placed c)
      (hi : ∀ c ∈ children, index < c.index ∧ c.stop ≤ stop) (ho : children.Pairwise Before) :
      Placed (.group .group value index stop children opener closer)
  | call {value : String} {index : Int} {name arguments : Token} (h : index < arguments.index)
      (ha : Placed arguments) : Placed (.call .call value index arguments.stop name arguments)

/-- Tokens that follow each other. -/
structure Ordered (L : List Token) : Prop where
  pairwise : L.Pairwise Token.Before
  placed : ∀ t ∈ L, t.Placed

theorem Token.contents_of_inside {t : Token} {bracket : String}
    (h : (t.inside? bracket).isSome = true) : t.contents = t.children := by
  cases t with
  | leaf => rfl
  | group => rfl
  | call => simp [inside?] at h

namespace Token.Placed

variable {t : Token}

theorem index_lt_stop (h : t.Placed) : t.index < t.stop := by
  induction h with
  | leaf h => exact h
  | group h _ _ _ _ => exact h
  | call h _ ih => exact Int.lt_trans h ih

theorem contents_ordered (h : t.Placed) : Ordered t.contents := by
  cases h with
  | leaf h => exact ⟨.nil, by simp [contents]⟩
  | group h hc hi ho => exact ⟨ho, hc⟩
  | call h ha =>
    cases ha with
    | leaf _ => exact ⟨.nil, by simp [contents, children]⟩
    | group _ hc _ ho => exact ⟨ho, hc⟩
    | call _ _ => exact ⟨.nil, by simp [contents, children]⟩

theorem contents_inside (h : t.Placed) {c : Token} (hc : c ∈ t.contents) :
    t.index < c.index ∧ c.stop ≤ t.stop := by
  cases h with
  | leaf h => simp [contents] at hc
  | group h _ hi ho => exact hi c hc
  | call h ha =>
    cases ha with
    | leaf _ => simp [contents, children] at hc
    | group _ _ hi _ =>
      obtain ⟨hindex, hstop⟩ := hi c hc
      exact ⟨Int.lt_trans h hindex, hstop⟩
    | call _ _ => simp [contents, children] at hc

theorem eq_leaf (h : t.Placed) (hg : t.kind ≠ .group) (hc : t.kind ≠ .call) :
    ∃ kind value index stop, t = .leaf kind value index stop := by
  cases h with
  | leaf _ => exact ⟨_, _, _, _, rfl⟩
  | group _ _ _ _ => exact absurd rfl hg
  | call _ _ => exact absurd rfl hc

theorem kind_of_inside (h : t.Placed) {bracket : String} {inner : List Token}
    (hb : t.inside? bracket = some inner) : t.kind = .group ∧ t.contents = inner := by
  cases h with
  | leaf _ => simp [inside?] at hb
  | group _ _ _ _ =>
    simp only [inside?] at hb
    split at hb
    · cases hb
      exact ⟨rfl, rfl⟩
    · cases hb
  | call _ _ => simp [inside?] at hb

end Token.Placed

namespace Ordered

variable {L : List Token}

theorem sublist {L' : List Token} (h : Ordered L) (hs : L'.Sublist L) : Ordered L' :=
  ⟨h.pairwise.sublist hs, fun t ht => h.placed t (hs.subset ht)⟩

theorem eq_of_covers (h : Ordered L) {s t : Token} (hs : s ∈ L) (ht : t ∈ L) {i : Int}
    (hsi : s.index ≤ i ∧ i < s.stop) (hti : t.index ≤ i ∧ i < t.stop) : s = t := by
  have hforward : L.Pairwise (fun a b => a = b ∨ a.Before b ∨ b.Before a) :=
    h.pairwise.imp (fun hab => .inr (.inl hab))
  have hbackward : L.Pairwise (flip fun a b => a = b ∨ a.Before b ∨ b.Before a) :=
    h.pairwise.imp (fun hab => .inr (.inr hab))
  have hfar : s = t ∨ s.Before t ∨ t.Before s :=
    hforward.forall_of_forall_of_flip (fun _ _ => .inl rfl) hbackward hs ht
  rcases hfar with rfl | hst | hts
  · rfl
  · have hle : s.stop ≤ t.index := hst
    omega
  · have hle : t.stop ≤ s.index := hts
    omega

end Ordered

/-- The lists of tokens in a forest: the forest itself and what is between its brackets. -/
inductive Level : List Token → List Token → Prop where
  | here (F : List Token) : Level F F
  | into {F L : List Token} {t : Token} (h : t ∈ F) (hl : Level t.contents L) : Level F L

namespace Level

variable {F L L' : List Token}

theorem contents {t : Token} (h : Level F L) (ht : t ∈ L) : Level F t.contents := by
  induction h with
  | here F => exact .into ht (.here _)
  | into hs _ ih => exact .into hs (ih ht)

theorem ordered (h : Level F L) (hF : Ordered F) : Ordered L := by
  induction h with
  | here F => exact hF
  | into hs _ ih => exact ih (hF.placed _ hs).contents_ordered

theorem inside {s t : Token} (h : Level s.contents L) (hs : s.Placed) (ht : t ∈ L) :
    s.index < t.index ∧ t.stop ≤ s.stop := by
  generalize hF : s.contents = F at h
  induction h generalizing s with
  | here F =>
    subst hF
    exact hs.contents_inside ht
  | @into F L u hu hl ih =>
    subst hF
    have hplaced := hs.contents_ordered.placed u hu
    obtain ⟨hindex, hstop⟩ := hs.contents_inside hu
    obtain ⟨hi, hj⟩ := ih hplaced ht rfl
    omega

/-- The place of a token tells its list. -/
theorem unique (h : Level F L) (h' : Level F L') (hF : Ordered F) {t t' : Token} (ht : t ∈ L)
    (ht' : t' ∈ L') (hi : t.index = t'.index) : L = L' := by
  induction h with
  | here F =>
    cases h' with
    | here => rfl
    | @into _ _ s hs hl =>
      -- a token that starts inside another one of the list is not in the list itself
      have hsp := hF.placed s hs
      have hlt := (hF.placed t ht).index_lt_stop
      have hlt' := ((hl.ordered hsp.contents_ordered).placed t' ht').index_lt_stop
      obtain ⟨h1, h2⟩ := hl.inside hsp ht'
      have heq := hF.eq_of_covers ht hs (i := t.index) (by omega) (by omega)
      subst heq
      omega
  | @into F L s hs hl ih =>
    have hsp := hF.placed s hs
    have hlt := ((hl.ordered hsp.contents_ordered).placed t ht).index_lt_stop
    obtain ⟨h1, h2⟩ := hl.inside hsp ht
    cases h' with
    | here =>
      have hlt' := (hF.placed t' ht').index_lt_stop
      have heq := hF.eq_of_covers ht' hs (i := t.index) (by omega) (by omega)
      subst heq
      omega
    | @into _ _ s' hs' hl' =>
      have hsp' := hF.placed s' hs'
      have hlt' := ((hl'.ordered hsp'.contents_ordered).placed t' ht').index_lt_stop
      obtain ⟨h3, h4⟩ := hl'.inside hsp' ht'
      have heq := hF.eq_of_covers hs hs' (i := t.index) (by omega) (by omega)
      subst heq
      exact ih hl' hsp.contents_ordered ht

end Level

end Abacus
