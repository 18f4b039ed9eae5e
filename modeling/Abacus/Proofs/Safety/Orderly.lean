import Abacus.Proofs.Conduct.Plain
import Abacus.Proofs.Safety.Anchored

/-! Scripts stop only in ways that they can cause: with a fault inside the source, for want of an
input, or for want of fuel. All functions and blocks are made of anchored tokens, so that every
literal has a number, every operator a precedence and its two values, and what is to blame is in the
source. -/

namespace Abacus

open Conduct

variable {α : Type} {n : Nat}

/-- What a script relies on in a number system: numerals that a source of length `n` can hold have a
number, and there is a function behind `!`. -/
structure NumberSystem.Serves (n : Nat) (s : NumberSystem α) : Prop where
  numeral : ∀ text, Numeral text → text.length ≤ n + 1 → ∃ v, s.parse text = .ok v
  factorial : ∃ b, s.builtin? "fac" = some b

def Stop.InOrder (n : Nat) : Stop → Prop
  | .fault f => Within n f.offset
  | .input _ => True
  | .defect d => d = .outOfFuel

variable {setup : Setup α} (hs : setup.system.Serves n) (hshows : setup.Shows)

def Stops.inOrder : Stops setup where
  may := Stop.InOrder n
  input _ := trivial
  zero f hf := by
    obtain ⟨v, hv⟩ := hs.numeral "0" numeral_zero (Nat.le_add_left 1 n)
    cases hv.symm.trans hf
  factorial hnone := by
    obtain ⟨b, hb⟩ := hs.factorial
    cases hb.symm.trans hnone
  unshown := .inl hshows

def Conduct.orderly : Conduct setup :=
  .plain (AllAnchored n) (fun _ body => ∀ s ∈ body, s.Anchored n) .any (.inOrder hs hshows)

section Parts

variable {fit : List Token → Prop} {fitBlock : List Statement → Prop} {T : List Token} {t : Token}

theorem Within.place {i : Int} (h : Within n i) : (Conduct.orderly hs hshows).Place i :=
  fun _ _ => h

theorem AllAnchored.readable (h : AllAnchored n T) (key : Int × Int) :
    Readable (Conduct.orderly hs hshows) (fun body => ∀ s ∈ body, s.Anchored n) key T := by
  have hread := ofTokens_anchored setup.source setup.strict h
  refine ⟨fun body hb => ?_, fun _ hb => hb, fun f hf => ?_⟩
  · rw [hb] at hread
    exact hread
  · rw [hf] at hread
    exact hread

theorem first_within (h : AllAnchored n T) : Within n ((T.head?.map Token.index).getD 0) := by
  cases T with
  | nil => exact ⟨Int.le_refl 0, Int.natCast_nonneg n⟩
  | cons t rest => exact (h t List.mem_cons_self).index_within

theorem AllAnchored.argumentFits (h : AllAnchored n T) :
    ArgumentFits (Conduct.orderly hs hshows) (AllAnchored n) T :=
  ⟨h, (first_within h).place hs hshows⟩

theorem Token.Anchored.partsFit (h : t.Anchored n) :
    t.PartsFit (ArgumentFits (Conduct.orderly hs hshows) (AllAnchored n))
      (Readable (Conduct.orderly hs hshows) (fun body => ∀ s ∈ body, s.Anchored n)) := by
  cases h with
  | leaf _ _ _ => trivial
  | group _ _ hc _ =>
    simp only [Token.PartsFit]
    split
    · exact AllAnchored.argumentFits hs hshows hc
    · exact AllAnchored.readable hs hshows hc _
  | call _ _ _ ha =>
    intro runs hruns run hrun
    have hsplit := splitArguments_anchored ha.children_anchored ha.closer_within
    rw [hruns] at hsplit
    exact (hsplit run hrun).argumentFits hs hshows

theorem Token.Anchored.tokenFits (h : t.Anchored n) :
    TokenFits (Conduct.orderly hs hshows) (AllAnchored n) (fun body => ∀ s ∈ body, s.Anchored n)
      t where
  index := h.index_within.place hs hshows
  stop := h.stop_within.place hs hshows
  literal hnumber f hf := by
    obtain ⟨hnumeral, hlength⟩ := h.legible.number hnumber
    obtain ⟨v, hv⟩ := hs.numeral t.value hnumeral hlength
    cases hv.symm.trans hf
  operator hk hv hnone := by
    have hranked := (h.legible.operator hk).resolve_left hv
    rw [hnone] at hranked
    cases hranked
  parts := h.partsFit hs hshows
  called := by
    rintro kind value index stop name arguments rfl
    cases h with
    | call _ _ hn ha =>
      refine ⟨hn.index_within.place hs hshows, fun f hf => ?_⟩
      have hsplit := splitArguments_anchored ha.children_anchored ha.closer_within
      rw [hf] at hsplit
      exact hsplit

theorem AllAnchored.evaluable (h : AllAnchored n T) :
    Evaluable (Conduct.orderly hs hshows) (AllAnchored n) (fun body => ∀ s ∈ body, s.Anchored n)
      T := by
  have hline : ∀ {first rest}, T.filter (fun t => !t.isNewline) = first :: rest →
      AllAnchored n (first :: rest) := by
    intro first rest hf
    exact hf ▸ h.subset (fun _ hm => (List.mem_filter.mp hm).1)
  refine ⟨fun first rest hf => ?_, fun first rest hf _ => (hline hf).readable hs hshows _,
    fun first rest isFunction hf _ => ?_⟩
  · exact (hline hf first List.mem_cons_self).index_within.place hs hshows
  · split
    · refine ⟨fun t ht => ((splitWords_anchored (hline hf)) t ht).tokenFits hs hshows,
        fun hnil => ?_⟩
      exact absurd hnil (splitWords_ne_nil (hline hf) (List.cons_ne_nil first rest))
    · exact ⟨fun t ht => (hline hf t ht).tokenFits hs hshows, nofun⟩

theorem Statement.Anchored.statementFits {s : Statement} (h : s.Anchored n) :
    StatementFits (Conduct.orderly hs hshows) (AllAnchored n)
      (fun body => ∀ s ∈ body, s.Anchored n) s := by
  obtain ⟨horigin, hparts, hbody⟩ := h
  have hruns : ∀ R ∈ s.runs, AllAnchored n R :=
    fun R hR => hparts.subset (s.runs_subset_parts R hR)
  refine ⟨horigin.place hs hshows, fun t ht => ?_, hruns, hbody, fun _ => hruns, fun _ => rfl⟩
  exact ⟨(hparts t ht).index_within.place hs hshows, (hparts t ht).stop_within.place hs hshows⟩

end Parts

/-- Whatever is made of anchored tokens may be evaluated with any fuel. -/
def Conduct.Plan.orderly : Plan (Conduct.orderly hs hshows) where
  fit _ := AllAnchored n
  fitBlock _ body := ∀ s ∈ body, s.Anchored n
  lacks _ _ := rfl
  lacksBlock _ _ := rfl
  run _ _ h := h.evaluable hs hshows
  block _ _ h s hm := (h s hm).statementFits hs hshows
  functions _ _ h := h

end Abacus
