import Abacus.Proofs.Continued.Reading
import Abacus.Proofs.Reading.Program

/-! Grouping a source in which a line is continued. Neither a backslash nor a newline is a bracket or
part of a call, so the forest stays well formed with them in it, and its text is that of the source
with the two put between two of its tokens. -/

namespace Abacus

open Token

namespace Spliced

variable {source : String} {strict : Bool} {k : Int} {F F' : List Token}

theorem continuation_grouped {t : Token} (ht : t ∈ continuation k) : Grouped source strict t := by
  rcases List.mem_pair.mp ht with rfl | rfl <;>
    exact .leaf (by simp [Opens, closing?, Token.kind, Token.value])

theorem closing_eq {value text : String} (h : closing? value = some text) :
    text = ")" ∨ text = "\x7d" := by
  unfold closing? at h
  split at h
  · exact .inl (Option.some.inj h).symm
  · split at h
    · exact .inr (Option.some.inj h).symm
    · cases h

theorem continuation_not_closes {o t : Token} (ht : t ∈ continuation k) : ¬ Closes o t := by
  rintro ⟨_, hv⟩
  rcases List.mem_pair.mp ht with rfl | rfl <;>
    simpa [Token.value] using closing_eq hv

theorem not_closes {o : Token} (h : Spliced k F F') (hF : ∀ t ∈ F, ¬ Closes o t) :
    ∀ t ∈ F', ¬ Closes o t := by
  cases h with
  | @here U V t₁ t₂ _ _ =>
    intro t ht
    simp only [List.mem_append, List.mem_cons] at ht
    rcases ht with ht | rfl | ht | rfl | ht
    · exact hF t (by simp [ht])
    · exact hF t (by simp)
    · exact continuation_not_closes ht
    · exact hF t (by simp)
    · exact hF t (by simp [ht])
  | @inside U V C C' value index stop opener closer _ =>
    intro t ht
    simp only [List.mem_append, List.mem_cons] at ht
    rcases ht with ht | rfl | ht
    · exact hF t (by simp [ht])
    · simp [Closes, Token.kind]
    · exact hF t (by simp [ht])

theorem apart (h : Spliced k F F') (hF : Apart strict F) : Apart strict F' := by
  intro hs
  cases h with
  | @here U V t₁ t₂ _ _ =>
    obtain ⟨hfront, hback⟩ := List.isChain_split.mp (hF hs)
    refine List.isChain_split.mpr ⟨hfront, ?_⟩
    obtain ⟨_, hV⟩ := List.isChain_cons_cons.mp hback
    exact .cons_cons (fun hh => absurd hh.2 Bool.false_ne_true)
      (.cons_cons (fun hh => absurd hh.2 Bool.false_ne_true)
        (.cons_cons (fun hh => absurd hh.1 Bool.false_ne_true) hV))
  | @inside U V C C' value index stop opener closer _ =>
    -- the group looks the same from outside
    obtain ⟨hfront, hback⟩ := List.isChain_split.mp (hF hs)
    refine List.isChain_split.mpr ⟨?_, ?_⟩
    · obtain ⟨hU, _, hlast⟩ := List.isChain_append.mp hfront
      refine List.isChain_append.mpr ⟨hU, .singleton _, fun x hx y hy hh => ?_⟩
      obtain rfl := Option.some.inj hy
      refine hlast x hx _ rfl ⟨hh.1, ?_⟩
      simpa [isParenthesized, inside?] using hh.2
    · cases V with
      | nil => exact .singleton _
      | cons v V =>
        exact .cons_cons (fun hh => absurd hh.1 Bool.false_ne_true)
          (List.isChain_cons_cons.mp hback).2

/-- The first and the last flat token of a list in which a line is continued stay what they are. -/
theorem flat (h : Spliced k F F') (hF : ∀ t ∈ F, Grouped source strict t) :
    ∃ A a b B, flattenAll F = A ++ a :: b :: B ∧
      flattenAll F' = A ++ a :: (continuation k ++ b :: B) ∧ a.stop ≤ k ∧ k ≤ b.index := by
  induction h with
  | @here U V t₁ t₂ h₁ h₂ =>
    obtain ⟨_, a, _, ha, _, hstop⟩ := (hF t₁ (by simp)).ends
    obtain ⟨b, _, hb, _, hindex, _⟩ := (hF t₂ (by simp)).ends
    obtain ⟨A, hA⟩ := List.getLast?_eq_some_iff.mp ha
    obtain ⟨B, hB⟩ := List.head?_eq_some_iff.mp hb
    refine ⟨flattenAll U ++ A, a, b, B ++ flattenAll V, ?_, ?_, by omega, by omega⟩
    · simp [flattenAll_append, flattenAll, hA, hB]
    · simp [flattenAll_append, flattenAll, continuation, flatten, hA, hB]
  | @inside U V C C' value index stop opener closer _ ih =>
    have hg := hF (.group .group value index stop C opener closer) (by simp)
    obtain ⟨A, a, b, B, hC, hC', ha, hb⟩ := ih hg.contents_grouped
    refine ⟨flattenAll U ++ opener :: A, a, b, B ++ closer :: flattenAll V, ?_, ?_, ha, hb⟩
    · simp [flattenAll_append, flattenAll, flatten, hC]
    · simp [flattenAll_append, flattenAll, flatten, hC']

theorem wellFormed (h : Spliced k F F') (hF : WellFormed source strict F) :
    WellFormed source strict F' := by
  induction h with
  | @here U V t₁ t₂ h₁ h₂ =>
    refine ⟨fun t ht => ?_, (Spliced.here h₁ h₂).apart hF.apart⟩
    simp only [List.mem_append, List.mem_cons] at ht
    rcases ht with ht | rfl | ht | rfl | ht
    · exact hF.grouped t (by simp [ht])
    · exact hF.grouped t (by simp)
    · exact continuation_grouped ht
    · exact hF.grouped t (by simp)
    · exact hF.grouped t (by simp [ht])
  | @inside U V C C' value index stop opener closer h ih =>
    refine ⟨fun t ht => ?_, (Spliced.inside h).apart hF.apart⟩
    simp only [List.mem_append, List.mem_cons] at ht
    rcases ht with ht | rfl | ht
    · exact hF.grouped t (by simp [ht])
    · cases hF.grouped (.group .group value index stop C opener closer) (by simp) with
      | group ho hc hg hn ha =>
        have hC' := ih ⟨hg, ha⟩
        exact .group ho hc hC'.grouped (h.not_closes hn) hC'.apart
    · exact hF.grouped t (by simp [ht])

end Spliced

end Abacus
