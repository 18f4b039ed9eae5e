import Abacus.Proofs.Forest.Grouping
import Abacus.Proofs.Rendered.Basic

/-! The forest over flat tokens of another source. Flat tokens that correspond are grouped alike, so
what a well-formed forest is made from may be replaced by tokens that stand in other places. -/

namespace Abacus.Rendering

open Token

variable {R : Rendering} {t t' : Token} {T T' F : List Token}

/-- Flat tokens of two sources; the text of a group or a call that begins with them is no comma. -/
structure Piece (R : Rendering) (t t' : Token) : Prop where
  leaf : R.Leaf t t'
  opening : t.Opens → R.begins t.index t'.index ∧ ∀ stop stop',
    Text.slice R.source t.index stop ≠ "," ∧ Text.slice R.source' t'.index stop' ≠ ","
  naming : t.isName = true → ∀ text, t.value ++ text ≠ ","

theorem forall₂_split {γ δ : Type} {S : γ → δ → Prop} {A B : List γ} {T : List δ}
    (h : List.Forall₂ S (A ++ B) T) :
    ∃ A' B', T = A' ++ B' ∧ List.Forall₂ S A A' ∧ List.Forall₂ S B B' := by
  induction A generalizing T with
  | nil => exact ⟨[], T, rfl, .nil, h⟩
  | cons a A ih =>
    cases h with
    | cons ha h =>
      obtain ⟨A', B', rfl, hA, hB⟩ := ih h
      exact ⟨_ :: A', B', rfl, .cons ha hA, hB⟩

theorem Leaf.closes_iff (h : R.Leaf t t') (o : Token) : Closes o t ↔ Closes o t' := by
  simp only [Closes, h.kind_eq, h.value_eq]

theorem Leaf.opens_iff (h : R.Leaf t t') : t.Opens ↔ t'.Opens := by
  simp only [Opens, h.kind_eq, h.value_eq]

theorem Pair.closes_iff (h : R.Pair t t') {o o' : Token} (ho : o.value = o'.value) :
    Closes o t ↔ Closes o' t' := by
  simp only [Closes, ← h.kind_eq, ho]
  refine and_congr_right (fun hk => ?_)
  rw [h.value_of_kind (by simp [hk]) (by simp [hk])]

theorem Pairs.not_closes (h : R.Pairs T T') {o o' : Token} (ho : o.value = o'.value)
    (hT : ∀ x ∈ T, ¬ Closes o x) : ∀ x ∈ T', ¬ Closes o' x := by
  induction h with
  | nil => simp
  | cons ht _ ih =>
    obtain ⟨hfirst, hrest⟩ := List.forall_mem_cons.mp hT
    exact List.forall_mem_cons.mpr ⟨(ht.closes_iff ho).not.mp hfirst, ih hrest⟩

theorem Pairs.apart {strict : Bool} (h : R.Pairs T T') (hT : Apart strict T) :
    Apart strict T' := by
  intro hs
  have hchain := hT hs
  induction h with
  | nil => exact .nil
  | cons ht hrest ih =>
    cases hrest with
    | nil => exact .singleton _
    | cons hu hrest =>
      obtain ⟨hfirst, hback⟩ := List.isChain_cons_cons.mp hchain
      refine .cons_cons ?_ (ih (fun _ => hback) hback)
      rwa [← ht.isName_eq, ← hu.isParenthesized_eq]

/-- What a token is made from may be replaced. -/
def Regroups (R : Rendering) (t : Token) : Prop :=
  ∀ T', List.Forall₂ R.Piece (flatten t) T' →
    ∃ t', flatten t' = T' ∧ R.Pair t t' ∧ R.Pairs t.children t'.children ∧
      Grouped R.source' R.strict t'

theorem regroupAll (hT : ∀ t ∈ T, R.Regroups t) (h : List.Forall₂ R.Piece (flattenAll T) T') :
    ∃ F, flattenAll F = T' ∧ R.Pairs T F ∧ ∀ t ∈ F, Grouped R.source' R.strict t := by
  induction T generalizing T' with
  | nil =>
    cases h
    exact ⟨[], rfl, .nil, by simp⟩
  | cons t T ih =>
    obtain ⟨A, B, rfl, hA, hB⟩ := forall₂_split h
    obtain ⟨t', rfl, hpair, _, hg⟩ := hT t List.mem_cons_self A hA
    obtain ⟨F, rfl, hpairs, hgrouped⟩ := ih (fun u hu => hT u (List.mem_cons_of_mem t hu)) hB
    exact ⟨t' :: F, rfl, .cons hpair hpairs, List.forall_mem_cons.mpr ⟨hg, hgrouped⟩⟩

theorem grouped_regroups (h : Grouped R.source R.strict t) : R.Regroups t := by
  induction h with
  | @leaf kind value index stop ho =>
    intro T' hT
    simp only [flatten] at hT
    cases hT with
    | cons hp hT =>
      cases hT
      obtain ⟨hleaf, _, _⟩ := hp
      have hopens := hleaf.opens_iff.not.mp ho
      cases hleaf with
      | intro hw => exact ⟨_, rfl, .leaf (.intro hw), .nil, .leaf hopens⟩
  | @group C o c ho hc hg hn ha ih =>
    intro T' hT
    simp only [flatten] at hT
    cases hT with
    | @cons _ o' _ T' hpo hT =>
      obtain ⟨A, B, rfl, hA, hB⟩ := forall₂_split hT
      cases hB with
      | @cons _ c' _ _ hpc hB =>
        cases hB
        obtain ⟨C', rfl, hpairs, hgrouped⟩ := regroupAll ih hA
        have hvalue := hpo.leaf.value_eq
        obtain ⟨hbegins, hcomma⟩ := hpo.opening ho
        obtain ⟨hv, hv'⟩ := hcomma c.stop c'.stop
        have hlabel : Text.slice R.source o.index c.stop = "," ↔
            Text.slice R.source' o'.index c'.stop = "," :=
          ⟨fun hh => absurd hh hv, fun hh => absurd hh hv'⟩
        refine ⟨.group .group (Text.slice R.source' o'.index c'.stop) o'.index c'.stop C' o' c', rfl,
          ?_, hpairs, .group (hpo.leaf.opens_iff.mp ho) ?_ hgrouped
            (hpairs.not_closes hvalue hn) (hpairs.apart ha)⟩
        · rcases ho.value_eq with hvo | hvo
          · exact .parentheses hlabel hvo (hvalue ▸ hvo) hbegins hpairs
          · exact .braces hlabel hvo (hvalue ▸ hvo) hpairs
        · have hclose := (hpc.leaf.closes_iff o).mp hc
          simpa only [Closes, hvalue] using hclose
  | @call n a hs hn hp hg ih =>
    intro T' hT
    simp only [flatten] at hT
    cases hT with
    | @cons _ n' _ T' hpn hT =>
      obtain ⟨a', rfl, hpair, hpairs, hgrouped⟩ := ih T' hT
      have hp' := hpair.isParenthesized_eq ▸ hp
      have hv := hpn.naming hn
      have hlabel : n.value ++ a.value = "," ↔ n'.value ++ a'.value = "," :=
        ⟨fun hh => absurd hh (hv _), fun hh => absurd hh (hpn.leaf.value_eq ▸ hv _)⟩
      exact ⟨fuse n' a', rfl, .call hlabel hpn.leaf hp hp' hpairs, .nil,
        .call hs (hpn.leaf.isName_eq ▸ hn) hp' hgrouped⟩

/-- Flat tokens that correspond to those of a well-formed forest are grouped like them. -/
theorem groupAll_regroups (hF : WellFormed R.source R.strict F)
    (h : List.Forall₂ R.Piece (flattenAll F) T') :
    ∃ G, groupAll R.source' R.strict T' = .ok G ∧ R.Pairs F G := by
  obtain ⟨G, rfl, hpairs, hgrouped⟩ :=
    regroupAll (fun t ht => grouped_regroups (hF.grouped t ht)) h
  have hG : WellFormed R.source' R.strict G := ⟨hgrouped, hpairs.apart hF.apart⟩
  exact ⟨G, hG.groupAll_flattenAll, hpairs⟩

end Abacus.Rendering
