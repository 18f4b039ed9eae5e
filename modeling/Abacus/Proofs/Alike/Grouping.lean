import Abacus.Proofs.Alike.Basic
import Abacus.Proofs.Forest.Grouping

/-! Grouping two flat lists that correspond. Brackets are told by kind and value, so both lists are
grouped in the same way, and so are names and the brackets behind them. -/

namespace Abacus

open Token

namespace Likeness

variable {L : Likeness} {t t' : Token}

/-- Tokens of two flat lists; the text of a group or a call that begins with them is no comma. -/
structure Piece (L : Likeness) (t t' : Token) : Prop where
  leaf : L.Leaf t t'
  opening : t.Opens → ∀ stop stop', Abacus.Text.slice L.source t.index stop ≠ "," ∧
    Abacus.Text.slice L.source' t'.index stop' ≠ ","
  naming : t.isName = true → ∀ text, t.value ++ text ≠ ","

/-- Tokens that were grouped and may still become parts of calls. -/
structure Stacked (L : Likeness) (t t' : Token) : Prop where
  twin : L.Twin t t'
  naming : t.isName = true → ∀ text, t.value ++ text ≠ ","

/-- Brackets that are open in both lists, with what was found behind them. -/
structure OpenAlike (L : Likeness) (g g' : OpenGroup) : Prop where
  piece : L.Piece g.opener g'.opener
  opens : g.opener.Opens
  children : List.Forall₂ L.Stacked g.children g'.children

theorem Piece.stacked (h : L.Piece t t') : L.Stacked t t' :=
  ⟨.leaf h.leaf, h.naming⟩

theorem OpenAlike.refill {g g' : OpenGroup} (h : L.OpenAlike g g') {pile pile' : List Token}
    (hp : List.Forall₂ L.Stacked pile pile') :
    L.OpenAlike ⟨g.opener, pile⟩ ⟨g'.opener, pile'⟩ :=
  ⟨h.piece, h.opens, hp⟩

theorem tokens_of_stacked (hl : ¬ L.loose) {T T' : List Token}
    (h : List.Forall₂ L.Stacked T T') : L.Tokens T T' := by
  induction h with
  | nil => exact .nil
  | cons ht _ ih =>
    cases ht.twin with
    | leaf h => exact .leaf h (fun hh => absurd hh hl) ih
    | group hv hi hb hs ho hc hC => exact .group hv hi hb hs ho hc hC ih
    | call hl hn hv ha hp => exact .call hl hn hv ha hp ih

theorem close_like (hl : ¬ L.loose) {g g' : OpenGroup} (h : L.OpenAlike g g')
    (ht : L.Leaf t t') : L.Twin (close L.source g t) (close L.source' g' t') := by
  obtain ⟨hpiece, hopens, hchildren⟩ := h
  obtain ⟨hcomma, hcomma'⟩ := hpiece.opening hopens t.stop t'.stop
  exact .group ⟨fun hv => L.slices hv hpiece.leaf.spot_index ht.spot_stop,
      ⟨fun hh => absurd hh hcomma, fun hh => absurd hh hcomma'⟩⟩ hpiece.leaf.spot_index
    (fun _ => hpiece.leaf.starts_index) ht.stops_stop hpiece.leaf.edge ht.edge
    (tokens_of_stacked hl (List.rel_reverse hchildren))

theorem settle_like (hl : ¬ L.loose) {pile pile' : List Token} {g g' : Token}
    (h : List.Forall₂ L.Stacked pile pile') (hg : L.Twin g g') (hk : g.isName = false) :
    List.Forall₂ L.Stacked (settle L.strict pile g) (settle L.strict' pile' g') := by
  have hgroup : L.Stacked g g' := ⟨hg, fun hn => by simp [hk] at hn⟩
  cases h with
  | nil => exact .cons hgroup .nil
  | @cons n n' pile pile' hn hpile =>
    unfold settle
    dsimp only
    rw [← hn.twin.isName_eq, ← hg.isParenthesized_eq, ← L.same_mode hl]
    split
    · next hcall =>
      simp only [Bool.and_eq_true] at hcall
      have hleaf := hn.twin.leaf_of_isName hcall.1.2
      have hcomma := hn.naming hcall.1.2 g.value
      have hcomma' := hleaf.value_eq ▸ hn.naming hcall.1.2 g'.value
      have hlabel : L.Label (n.value ++ g.value) (n'.value ++ g'.value) :=
        ⟨fun hv => by rw [hleaf.value_eq, hg.label.same hv],
          ⟨fun hh => absurd hh hcomma, fun hh => absurd hh hcomma'⟩⟩
      exact .cons ⟨.call hl hleaf hlabel (tokens_of_stacked hl (.cons hgroup .nil)) hcall.2,
        fun hm => by simp [isName, Token.kind, fuse] at hm⟩ hpile
    · exact .cons hgroup (.cons hn hpile)

theorem groupFrom_like (hl : ¬ L.loose) {rest rest' : List Token}
    (h : List.Forall₂ L.Piece rest rest') {stack stack' : List OpenGroup}
    (hs : List.Forall₂ L.OpenAlike stack stack') {top top' : List Token}
    (htop : List.Forall₂ L.Stacked top top') :
    L.Agree L.Tokens (groupFrom L.source L.strict stack top rest)
      (groupFrom L.source' L.strict' stack' top' rest') := by
  induction h generalizing stack stack' top top' with
  | nil =>
    cases hs with
    | nil => exact .ok (tokens_of_stacked hl (List.rel_reverse htop))
    | cons hg _ => exact .error ⟨hg.piece.leaf.spot_index, rfl, fun _ => rfl⟩
  | @cons t t' rest rest' ht _ ih =>
    rw [groupFrom_cons, groupFrom_cons, ← ht.leaf.kind_eq, ← ht.leaf.value_eq]
    by_cases hopens : t.kind = .symbol ∧ (closing? t.value).isSome = true
    · rw [if_pos hopens, if_pos hopens]
      have hopen : L.OpenAlike ⟨t, []⟩ ⟨t', []⟩ := ⟨ht, hopens, .nil⟩
      exact ih (.cons hopen hs) htop
    · rw [if_neg hopens, if_neg hopens]
      cases hs with
      | nil => exact ih .nil (.cons ht.stacked htop)
      | @cons g g' outer outer' hg houter =>
        dsimp only
        rw [← hg.piece.leaf.value_eq]
        by_cases hcloses : t.kind = .symbol ∧ closing? g.opener.value = some t.value
        · rw [if_pos hcloses, if_pos hcloses]
          have hclosed := close_like hl hg ht.leaf
          cases houter with
          | nil => exact ih .nil (settle_like hl htop hclosed rfl)
          | cons hh houter =>
            exact ih (.cons (hh.refill (settle_like hl hh.children hclosed rfl)) houter) htop
        · rw [if_neg hcloses, if_neg hcloses]
          exact ih (.cons (hg.refill (.cons ht.stacked hg.children)) houter) htop

/-- Flat lists that correspond are grouped alike. -/
theorem groupAll_like (hl : ¬ L.loose) {T T' : List Token} (h : List.Forall₂ L.Piece T T') :
    L.Agree L.Tokens (groupAll L.source L.strict T) (groupAll L.source' L.strict' T') :=
  groupFrom_like hl h .nil .nil

end Likeness

end Abacus
