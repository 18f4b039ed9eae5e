import Abacus.Proofs.Alike.Steps
import Abacus.Proofs.LoopFree.Forest

/-! How much of the source a run of tokens covers. What is inside a bracket covers less than a run
with the bracket in it, and so does what is left of a run behind its first token. So the parts of a
statement that is read from a run are bounded by the run, and its block covers less. -/

namespace Abacus

open Token Statement

/-- The token and the tokens inside it are between two places. -/
structure Token.Between (start stop : Int) (t : Token) : Prop where
  place : start ≤ t.index ∧ t.stop ≤ stop
  contents : ∀ c ∈ t.contents, start ≤ c.index ∧ c.stop ≤ stop

/-- The tokens of a run are between two places of the source with `n` characters between them. -/
def Spans (n : Nat) (R : List Token) : Prop :=
  ∃ start : Int, ∀ t ∈ R, t.Between start (start + n)

variable {source : String} {strict : Bool} {F T R : List Token} {t : Token} {n m : Nat}

theorem Token.Placed.between (h : t.Placed) {start stop : Int} (hstart : start ≤ t.index)
    (hstop : t.stop ≤ stop) : t.Between start stop := by
  refine ⟨⟨hstart, hstop⟩, fun c hc => ?_⟩
  obtain ⟨hindex, hend⟩ := h.contents_inside hc
  omega

namespace Spans

theorem subset (h : Spans n T) (hs : R ⊆ T) : Spans n R := by
  obtain ⟨start, h⟩ := h
  exact ⟨start, fun t ht => h t (hs ht)⟩

theorem mono (h : Spans n R) (hn : n ≤ m) : Spans m R := by
  obtain ⟨start, h⟩ := h
  refine ⟨start, fun t ht => ⟨?_, fun c hc => ?_⟩⟩
  · have hplace := (h t ht).place
    omega
  · have hinside := (h t ht).contents c hc
    omega

/-- What is inside a token covers less than a run with the token in it. -/
theorem contents (h : Spans n R) (ht : t ∈ R) (hp : t.Placed) :
    ∃ m, n = m + 1 ∧ Spans m t.contents := by
  obtain ⟨start, h⟩ := h
  obtain ⟨hstart, hstop⟩ := (h t ht).place
  have hlt := hp.index_lt_stop
  obtain ⟨m, rfl⟩ : ∃ m, n = m + 1 := Nat.exists_eq_succ_of_ne_zero (by omega)
  refine ⟨m, rfl, start + 1, fun c hc => ?_⟩
  obtain ⟨hindex, hend⟩ := hp.contents_inside hc
  exact (hp.contents_ordered.placed c hc).between (by omega) (by omega)

/-- What is behind the first token of a run covers less than the run. -/
theorem behind {rest : List Token} (h : Spans n (t :: rest)) (ho : Ordered (t :: rest)) :
    ∃ m, n = m + 1 ∧ Spans m rest := by
  obtain ⟨start, h⟩ := h
  obtain ⟨hstart, hstop⟩ := (h t List.mem_cons_self).place
  have hlt := (ho.placed t List.mem_cons_self).index_lt_stop
  obtain ⟨m, rfl⟩ : ∃ m, n = m + 1 := Nat.exists_eq_succ_of_ne_zero (by omega)
  refine ⟨m, rfl, start + 1, fun u hu => ?_⟩
  have hbefore : t.stop ≤ u.index := (List.pairwise_cons.mp ho.pairwise).1 u hu
  have hend := (h u (List.mem_cons_of_mem _ hu)).place.2
  exact (ho.placed u (List.mem_cons_of_mem _ hu)).between (by omega) (by omega)

end Spans

section Parts

theorem Statement.Fit.runs {fit : List Token → Prop} {s : Statement} (h : s.Fit fit) :
    ∀ R ∈ s.runs, fit R := by
  cases s <;> simp_all [Statement.runs, Statement.Fit]

/-- What a statement makes of some tokens is where these are. -/
theorem from_between (hF : ForestOf source strict F) {used : List Token} {start stop : Int}
    (hu : ∀ u ∈ used, InForest F u ∧ start ≤ u.index ∧ u.stop ≤ stop) (h : Token.From used t) :
    t.Between start stop := by
  cases h with
  | taken h =>
    obtain ⟨hin, hstart, hstop⟩ := hu t h
    exact (hin.placed hF.ordered).between hstart hstop
  | called h =>
    obtain ⟨hin, hstart, hstop⟩ := hu _ h
    have hcover := hF.covers hin (s := t) List.mem_cons_self
    have hleaf := scan_isLeaf source t ((hF.flatten_scan hin).subset List.mem_cons_self)
    cases t with
    | leaf =>
      exact ⟨⟨Int.le_trans hstart hcover.1, Int.le_trans hcover.2 hstop⟩, by simp [contents]⟩
    | group => exact hleaf.elim
    | call => exact hleaf.elim
  | one h =>
    obtain ⟨hin, hstart, hstop⟩ := hu _ h
    exact ⟨⟨hstart, hstop⟩, by simp [contents]⟩
  | @bracket value first last run hfirst hlast hrun =>
    refine ⟨⟨?_, ?_⟩, fun c hc => (hu c (hrun hc)).2⟩
    · obtain ⟨u, hmem, hi⟩ := hfirst
      obtain ⟨hin, hstart, _⟩ := hu u hmem
      have hlt := (hin.placed hF.ordered).index_lt_stop
      show start ≤ first
      omega
    · obtain ⟨u, hmem, rfl⟩ := hlast
      exact (hu u hmem).2.2

theorem head_spans {after : Bool} {rest : List Token} {h : Head} (hF : ForestOf source strict F)
    (hr : Reading F (t :: rest)) (hs : Spans n (t :: rest)) {source' : String} {strict' : Bool}
    (hh : head source' strict' after t rest = .ok h) (body : List Statement) :
    ∀ R ∈ (h.finish body).runs, Spans n R := by
  obtain ⟨used, heq, hused⟩ := head_takes hh
  obtain ⟨start, hs⟩ := hs
  have hplaces : ∀ u ∈ used, InForest F u ∧ start ≤ u.index ∧ u.stop ≤ start + n := by
    intro u hu
    have hmem : u ∈ t :: rest := heq ▸ List.mem_append_left _ hu
    exact ⟨hr.inForest hmem, (hs u hmem).place⟩
  intro R hR
  refine ⟨start, fun u hu => from_between hF hplaces ?_⟩
  exact hused.parts body u (runs_subset_parts _ R hR hu)

end Parts

section Blocks

/-- What a statement with a condition evaluates is behind its word. -/
theorem conditionHead_runs {keyword : Token} {what : String} {rest : List Token} {h : Head}
    {make : Origin → List Token → List Statement → String → Statement}
    (hm : ∀ o c body s, (make o c body s).runs = [c])
    (hh : conditionHead source keyword what make rest = .ok h) (body : List Statement) :
    ∀ R ∈ (h.finish body).runs, R ⊆ rest := by
  obtain ⟨D, block, behind, o, s, rfl, _, rfl⟩ := conditionHead_cases hh
  intro R hR
  rw [hm, List.mem_singleton] at hR
  subst hR
  exact fun u hu => List.mem_append_left _ (List.mem_filter.mp hu).1

theorem timesHead_runs {keyword : Token} {rest : List Token} {h : Head}
    (hh : timesHead source keyword rest = .ok h) (body : List Statement) :
    ∀ R ∈ (h.finish body).runs, R ⊆ rest := by
  unfold timesHead at hh
  split at hh
  · cases hh
  · next amount behind hfound =>
    obtain ⟨times, rfl, _⟩ := amountFrom_eq hfound
    split at hh
    · cases hh
    · suffices hruns : (h.finish body).runs = [amount] by simp [hruns]
      dsimp only at hh
      split at hh
      · next u tail =>
        split at hh
        · cases tail with
          | nil => simp [counterHead] at hh
          | cons counter tail =>
            simp only [counterHead] at hh
            split at hh
            · obtain ⟨block, after, _, _, rfl⟩ := blockHead_cases hh
              rfl
            · cases hh
        · obtain ⟨block, after, _, _, rfl⟩ := blockHead_cases hh
          rfl
      · obtain ⟨block, after, heq, _⟩ := blockHead_cases hh
        cases heq

theorem repeatHead_runs {keyword : Token} {rest : List Token} {h : Head}
    (hh : repeatHead source keyword rest = .ok h) (body : List Statement) :
    ∀ R ∈ (h.finish body).runs, R ⊆ rest := by
  unfold repeatHead at hh
  split at hh
  · next u tail =>
    split at hh
    · intro R hR
      have hsub := conditionHead_runs (fun _ _ _ _ => rfl) hh body R hR
      exact List.subset_cons_of_subset _ hsub
    · exact timesHead_runs hh body
  · exact timesHead_runs hh body

/-- What a statement evaluates that starts with the word of a block is behind this word. -/
theorem head_runs_of_startsBlock {after : Bool} {rest : List Token} {h : Head} (hp : t.Placed)
    (hs : Eval.startsBlock t = true) (hh : head source strict after t rest = .ok h)
    (body : List Statement) : ∀ R ∈ (h.finish body).runs, R ⊆ rest := by
  have hkeyword := head_of_startsBlock source strict after hp hs rest
  obtain ⟨hword, hvalue⟩ := startsBlock_cases hs
  rw [hh] at hkeyword
  rcases hvalue with hvalue | hvalue | hvalue
  · simp only [keywordHead?, hword, hvalue, if_true] at hkeyword
    exact conditionHead_runs (fun _ _ _ _ => rfl) (Option.some.inj hkeyword).symm body
  · simp only [keywordHead?, hword, hvalue, if_true] at hkeyword
    exact repeatHead_runs (Option.some.inj hkeyword).symm body
  · simp only [keywordHead?, hword, hvalue, if_true] at hkeyword
    obtain ⟨block, behind, _, _, rfl⟩ := blockHead_cases (Option.some.inj hkeyword).symm
    exact fun R hR => absurd hR List.not_mem_nil

end Blocks

/-- A statement that runs its block a known number of times, whose runs cover at most `n` characters
and whose block was read from fewer. -/
structure Shallow (F : List Token) (source : String) (n : Nat) (s : Statement) : Prop where
  kind : s.kind.Bounded
  runs : ∀ R ∈ s.runs, Fits F R ∧ Spans n R
  body : ∀ body, s.body? = some body → ∃ strict T m, m < n ∧ Reading F T ∧ Spans m T ∧
    ReadsTo source strict false T (.ok body)

section Statements

theorem Reading.ordered (h : Reading F T) (hF : Ordered F) : Ordered T := by
  obtain ⟨L, hL, P, S, hs, _⟩ := h
  have hsub : T.Sublist (P ++ T ++ S) :=
    (List.sublist_append_right P T).trans (List.sublist_append_left _ S)
  exact (hL.ordered hF).sublist (hsub.trans hs)

theorem ReadsTo.fits (hF : Ordered F) {after : Bool} {body : List Statement} (hT : Reading F T)
    (h : ReadsTo source strict after T (.ok body)) : AllFit (Fits F) body := by
  induction h using ReadsTo.ok_induction with
  | done => trivial
  | skip _ _ ih => exact ih (hT.suffix (List.suffix_cons _ _))
  | cons ht hh _ _ ihi iho =>
    have hfits := head_fits hF hT (List.suffix_refl _) ht hh
    exact ⟨hfits.finish _ (ihi hfits.inner), iho (hT.suffix hfits.rest)⟩

variable {k : Nat} {strictly : Bool} (hF : ForestOf source strict F) (hT : Tame F)

include hF hT

/-- The first statement of a list is bounded by what follows its first token, given that its runs
are. -/
theorem head_shallow {after : Bool} {rest : List Token} {h : Head} {inner : List Statement}
    (hr : Reading F (t :: rest)) (hs : Spans n rest) (ht : t.isTerminator = false)
    (hh : head source strictly after t rest = .ok h)
    (hi : ReadsTo source strictly false h.inner (.ok inner))
    (hruns : ∀ R ∈ (h.finish inner).runs, Spans n R) :
    Shallow F source n (h.finish inner) := by
  have hfits := head_fits hF.ordered hr (List.suffix_refl _) ht hh
  have hfinish := hfits.finish inner (hi.fits hF.ordered hfits.inner)
  refine ⟨hT.head_bounded hF.ordered hr hh inner,
    fun R hR => ⟨hfinish.runs R hR, hruns R hR⟩, fun body hbody => ?_⟩
  obtain ⟨used, heq, hused⟩ := head_takes hh
  rcases hused.block with ⟨_, hnone⟩ | ⟨kept, block, rfl, hne, hblock, hinner, hsome⟩
  · cases (hnone inner).symm.trans hbody
  · cases (hsome inner).1.symm.trans hbody
    -- at least the first token stands before the block
    obtain ⟨k, kept, rfl⟩ := List.exists_cons_of_ne_nil hne
    obtain ⟨rfl, hrest⟩ := List.cons.inj heq
    have hmem : block ∈ rest := by simp [hrest]
    have hin := hr.inForest (List.mem_cons_of_mem _ hmem)
    obtain ⟨m, rfl, hm⟩ := hs.contents hmem (hin.placed hF.ordered)
    rw [contents_of_inside hblock, ← hinner] at hm
    exact ⟨strictly, h.inner, m, Nat.lt_succ_self m, hfits.inner, hm, hi⟩

theorem ReadsTo.shallow {after : Bool} {body : List Statement} (hr : Reading F T)
    (hs : Spans n T) (h : ReadsTo source strictly after T (.ok body)) :
    ∀ s ∈ body, Shallow F source n s := by
  induction h using ReadsTo.ok_induction with
  | done => simp
  | skip _ _ ih =>
    exact ih (hr.suffix (List.suffix_cons _ _)) (hs.subset (List.subset_cons_self _ _))
  | cons ht hh hi _ _ iho =>
    have hsuffix := (head_fits hF.ordered hr (List.suffix_refl _) ht hh).rest
    refine List.forall_mem_cons.mpr ⟨?_, iho (hr.suffix hsuffix) (hs.subset hsuffix.subset)⟩
    exact head_shallow hF hT hr (hs.subset (List.subset_cons_self _ _)) ht hh hi
      (head_spans hF hr hs hh _)

/-- A run that starts with the word of a block makes statements that are bounded by less than the
run. -/
theorem shallow_of_startsBlock {rest : List Token} {body : List Statement}
    (hr : Reading F (t :: rest)) (hs : Spans n (t :: rest)) (hstarts : Eval.startsBlock t = true)
    (hb : ofTokens source strictly (t :: rest) = .ok body) :
    ∃ m, n = m + 1 ∧ ∀ s ∈ body, Shallow F source m s := by
  have hread := ofTokens_readsTo source strictly (t :: rest)
  rw [hb] at hread
  obtain ⟨m, rfl, hm⟩ := hs.behind (hr.ordered hF.ordered)
  refine ⟨m, rfl, ?_⟩
  have hword := (startsBlock_cases hstarts).1
  have hterminator : t.isTerminator = false := by simp [isTerminator, isSymbol, is, hword]
  cases hread with
  | skip ht _ => simp [hterminator] at ht
  | cons ht hh hi ho =>
    have hp := (hr.inForest List.mem_cons_self).placed hF.ordered
    obtain ⟨used, heq, hused⟩ := head_takes hh
    obtain ⟨u, used, rfl⟩ := List.exists_cons_of_ne_nil hused.ne_nil
    obtain ⟨rfl, hrest⟩ := List.cons.inj heq
    have hsuffix : _ <:+ rest := ⟨used, hrest.symm⟩
    refine List.forall_mem_cons.mpr ⟨?_, ?_⟩
    · exact head_shallow hF hT hr hm ht hh hi
        (fun R hR => hm.subset (head_runs_of_startsBlock hp hstarts hh _ R hR))
    · exact ho.shallow hF hT (hr.suffix (hsuffix.trans (List.suffix_cons _ _)))
        (hm.subset hsuffix.subset)

end Statements

end Abacus
