import Abacus.Proofs.Reading.Heads

/-! Reading a whole list of tokens. The bound on the number of steps is never reached. The statements
of a list follow each other and leave out only ends of lines and backslashes, and a block is read
from the tokens between its brackets. -/

namespace Abacus

open Token Statement

/-- Reading a list to its end, or to the first fault. -/
inductive ReadsTo (source : String) (strict : Bool) :
    Bool → List Token → Except Fault (List Statement) → Prop where
  | done {after : Bool} : ReadsTo source strict after [] (.ok [])
  | skip {after : Bool} {t : Token} {rest : List Token} {r : Except Fault (List Statement)}
      (ht : t.isTerminator = true) (hr : ReadsTo source strict after rest r) :
      ReadsTo source strict after (t :: rest) r
  | stuck {after : Bool} {t : Token} {rest : List Token} {f : Fault} (ht : t.isTerminator = false)
      (hh : head source strict after t rest = .error f) :
      ReadsTo source strict after (t :: rest) (.error f)
  | inside {after : Bool} {t : Token} {rest : List Token} {h : Head} {f : Fault}
      (ht : t.isTerminator = false) (hh : head source strict after t rest = .ok h)
      (hi : ReadsTo source strict false h.inner (.error f)) :
      ReadsTo source strict after (t :: rest) (.error f)
  | behind {after : Bool} {t : Token} {rest : List Token} {h : Head} {body : List Statement}
      {f : Fault} (ht : t.isTerminator = false) (hh : head source strict after t rest = .ok h)
      (hi : ReadsTo source strict false h.inner (.ok body))
      (ho : ReadsTo source strict (h.finish body).isCondition h.rest (.error f)) :
      ReadsTo source strict after (t :: rest) (.error f)
  | cons {after : Bool} {t : Token} {rest : List Token} {h : Head} {body others : List Statement}
      (ht : t.isTerminator = false) (hh : head source strict after t rest = .ok h)
      (hi : ReadsTo source strict false h.inner (.ok body))
      (ho : ReadsTo source strict (h.finish body).isCondition h.rest (.ok others)) :
      ReadsTo source strict after (t :: rest) (.ok (h.finish body :: others))

/-- Induction over a reading that has met no fault. -/
@[elab_as_elim]
theorem ReadsTo.ok_induction {source : String} {strict : Bool}
    {motive : ∀ after T body, ReadsTo source strict after T (.ok body) → Prop}
    (done : ∀ {after}, motive after [] [] .done)
    (skip : ∀ {after t rest body} ht (h : ReadsTo source strict after rest (.ok body)),
      motive after rest body h → motive after (t :: rest) body (.skip ht h))
    (cons : ∀ {after t rest h body others} ht (hh : head source strict after t rest = .ok h) hi ho,
      motive false h.inner body hi → motive (h.finish body).isCondition h.rest others ho →
        motive after (t :: rest) (h.finish body :: others) (.cons ht hh hi ho))
    {after : Bool} {T : List Token} {body : List Statement}
    (h : ReadsTo source strict after T (.ok body)) : motive after T body h := by
  suffices hall : ∀ r (h : ReadsTo source strict after T r) body (hr : r = .ok body),
      motive after T body (hr ▸ h) from hall _ h body rfl
  clear h body
  intro r h
  induction h with
  | done =>
    rintro _ ⟨⟩
    exact done
  | skip ht h ih =>
    rintro body rfl
    exact skip ht h (ih body rfl)
  | stuck | inside | behind => exact fun _ hr => nomatch hr
  | cons ht hh hi ho ihi iho =>
    rintro _ ⟨⟩
    exact cons ht hh hi ho (ihi _ rfl) (iho _ rfl)

theorem weightAll_append (T T' : List Token) :
    weightAll (T ++ T') = weightAll T + weightAll T' := by
  induction T with
  | nil => simp [weightAll]
  | cons t T ih =>
    simp only [List.cons_append, weightAll, ih]
    omega

theorem weight_pos (t : Token) : 0 < weight t := by
  cases t <;> simp only [weight] <;> omega

theorem weightAll_children (t : Token) : weightAll t.children < weight t := by
  cases t <;> simp only [weight, children, weightAll] <;> omega

namespace Statement.Head.Takes

variable {source : String} {used : List Token} {h : Head}

theorem ne_nil (hu : h.Takes source used) : used ≠ [] := by
  obtain ⟨first, _, _, _, hfirst, _⟩ := hu.span
  rintro rfl
  cases hfirst

theorem weight_inner (hu : h.Takes source used) : weightAll h.inner < weightAll used := by
  have hpos : 0 < weightAll used := by
    obtain ⟨t, rest, rfl⟩ := List.exists_cons_of_ne_nil hu.ne_nil
    have ht := weight_pos t
    simp only [weightAll]
    omega
  rcases hu.block with ⟨hinner, _⟩ | ⟨kept, block, rfl, _, _, hinner, _⟩
  · rw [hinner]
    exact hpos
  · have hblock := weightAll_children block
    rw [hinner, weightAll_append]
    simp only [weightAll]
    omega

end Statement.Head.Takes

/-- The weight of the tokens is enough to read them. -/
theorem readFrom_readsTo (source : String) (strict : Bool) {fuel : Nat} {after : Bool}
    {T : List Token} (hf : weightAll T ≤ fuel) :
    ReadsTo source strict after T (readFrom source strict fuel after T) := by
  induction fuel generalizing after T with
  | zero =>
    cases T with
    | nil => exact .done
    | cons t rest =>
      have ht := weight_pos t
      simp only [weightAll] at hf
      omega
  | succ fuel ih =>
    cases T with
    | nil => exact .done
    | cons t rest =>
      have ht := weight_pos t
      simp only [readFrom]
      split
      · next hterm =>
        simp only [weightAll] at hf
        exact .skip hterm (ih (by omega))
      · next hterm =>
        have hfalse : t.isTerminator = false := by simpa using hterm
        cases hh : head source strict after t rest with
        | error f => exact .stuck hfalse hh
        | ok h =>
          obtain ⟨used, heq, hused⟩ := head_takes hh
          have hweight := weightAll_append used h.rest
          have hlt := hused.weight_inner
          rw [← heq] at hweight
          have hinner : ReadsTo source strict false h.inner
              (readFrom source strict fuel false h.inner) := ih (by omega)
          simp only [bind, Except.bind]
          cases hi : readFrom source strict fuel false h.inner with
          | error f =>
            rw [hi] at hinner
            exact .inside hfalse hh hinner
          | ok body =>
            rw [hi] at hinner
            have hothers : ReadsTo source strict (h.finish body).isCondition h.rest
                (readFrom source strict fuel (h.finish body).isCondition h.rest) := ih (by omega)
            dsimp only
            cases ho : readFrom source strict fuel (h.finish body).isCondition h.rest with
            | error f =>
              rw [ho] at hothers
              exact .behind hfalse hh hinner hothers
            | ok others =>
              rw [ho] at hothers
              exact .cons hfalse hh hinner hothers

theorem ofTokens_readsTo (source : String) (strict : Bool) (T : List Token) :
    ReadsTo source strict false T (ofTokens source strict T) :=
  readFrom_readsTo source strict (Nat.le_refl _)

/-- So many blocks, one inside the other. -/
inductive NestsBlocks : Nat → List Token → Prop where
  | none (T : List Token) : NestsBlocks 0 T
  | block {n : Nat} {T : List Token} {t : Token} (ht : t ∈ T) (hb : t.isBlock = true)
      (h : NestsBlocks n t.children) : NestsBlocks (n + 1) T

theorem NestsBlocks.mono {n : Nat} {T T' : List Token} (h : NestsBlocks n T) (hs : T ⊆ T') :
    NestsBlocks n T' := by
  cases h with
  | none => exact .none T'
  | block ht hb h => exact .block (hs ht) hb h

theorem NestsBlocks.of_inner {source : String} {n : Nat} {used : List Token} {h : Head}
    (hn : NestsBlocks n h.inner) (hu : h.Takes source used) (hne : h.inner ≠ []) :
    NestsBlocks (n + 1) used := by
  rcases hu.block with ⟨hinner, _⟩ | ⟨kept, block, rfl, _, hblock, hinner, _⟩
  · exact absurd hinner hne
  · exact .block (by simp) hblock (hinner ▸ hn)

theorem InForest.mono {T T' : List Token} {t : Token} (h : InForest T t) (hs : T ⊆ T') :
    InForest T' t := by
  obtain ⟨L, hL, ht⟩ := h
  cases hL with
  | here => exact ⟨T', .here T', hs ht⟩
  | into hu hl => exact ⟨L, .into (hs hu) hl, ht⟩

theorem InForest.of_children {T : List Token} {block t : Token} (hb : block ∈ T)
    (hi : block.isBlock = true) (h : InForest block.children t) : InForest T t := by
  obtain ⟨L, hL, ht⟩ := h
  rw [← contents_of_inside hi] at hL
  exact ⟨L, .into hb hL, ht⟩

theorem Fault.At.mono {T T' : List Token} {f : Fault} (h : f.At T) (hs : T ⊆ T') : f.At T' := by
  obtain ⟨t, ht, hf⟩ := h
  exact ⟨t, ht.mono hs, hf⟩

theorem Fault.At.of_inner {source : String} {T used : List Token} {h : Head} {f : Fault}
    (hf : f.At h.inner) (hu : h.Takes source used) (hs : used ⊆ T) : f.At T := by
  obtain ⟨t, ht, hat⟩ := hf
  rcases hu.block with ⟨hinner, _⟩ | ⟨kept, block, rfl, _, hblock, hinner, _⟩
  · rw [hinner] at ht
    exact ⟨t, ht.mono (List.nil_subset T), hat⟩
  · rw [hinner] at ht
    exact ⟨t, ht.of_children (hs (by simp)) hblock, hat⟩

/-- The statements of a list: each starts with one of its tokens and stops with another, they follow
each other, and every significant token is inside one of them. -/
structure Divides (source : String) (T : List Token) (body : List Statement) : Prop where
  origin : ∀ s ∈ body, ∃ first ∈ T, ∃ last ∈ T, first.index ≤ last.index ∧
    s.origin = originOf source first last.stop
  follow : body.Pairwise (fun s u => s.origin.stop ≤ u.origin.index)
  covered : ∀ t ∈ T, t.isSignificant = true →
    ∃ s ∈ body, s.origin.index ≤ t.index ∧ t.stop ≤ s.origin.stop

theorem Ordered.first_le {L : List Token} (h : Ordered L) {first t : Token}
    (hf : L.head? = some first) (ht : t ∈ L) : first.index ≤ t.index := by
  obtain ⟨rest, rfl⟩ := List.head?_eq_some_iff.mp hf
  exact (span_of_ordered h t ht).1

theorem Divides.unique {source : String} {T : List Token} {body : List Statement}
    (h : Divides source T body) {s u : Statement} (hs : s ∈ body) (hu : u ∈ body) {i : Int}
    (hsi : s.origin.index ≤ i ∧ i < s.origin.stop) (hui : u.origin.index ≤ i ∧ i < u.origin.stop) :
    s = u := by
  have hforward : body.Pairwise (fun a b => a = b ∨ a.origin.stop ≤ b.origin.index ∨
      b.origin.stop ≤ a.origin.index) := h.follow.imp (fun hab => .inr (.inl hab))
  have hbackward : body.Pairwise (flip fun a b => a = b ∨ a.origin.stop ≤ b.origin.index ∨
      b.origin.stop ≤ a.origin.index) := h.follow.imp (fun hab => .inr (.inr hab))
  rcases hforward.forall_of_forall_of_flip (fun _ _ => .inl rfl) hbackward hs hu with rfl | hle | hle
  · rfl
  · omega
  · omega

/-- The tokens that a statement takes and the statements behind them. -/
theorem Divides.cons {source : String} {used rest : List Token} {h : Head}
    {body others : List Statement} (hT : Ordered (used ++ rest)) (hu : h.Takes source used)
    (ho : Divides source rest others) :
    Divides source (used ++ rest) (h.finish body :: others) := by
  obtain ⟨first, kept, last, trailing, hfirst, heq, htrailing, horigin⟩ := hu.span
  obtain ⟨hpused, _, hcross⟩ := List.pairwise_append.mp hT.pairwise
  have hused : Ordered used := hT.sublist (List.sublist_append_left _ _)
  have hlast : last ∈ used := by simp [heq]
  have hstop : ∀ t ∈ kept, t.stop ≤ last.index := by
    intro t ht
    rw [heq] at hpused
    exact (List.pairwise_append.mp hpused).2.2 t ht last List.mem_cons_self
  have hlt := (hused.placed last hlast).index_lt_stop
  refine ⟨List.forall_mem_cons.mpr ⟨?_, ?_⟩, List.pairwise_cons.mpr ⟨?_, ho.follow⟩, ?_⟩
  · exact ⟨first, List.mem_append_left _ (List.mem_of_mem_head? hfirst), last,
      List.mem_append_left _ hlast, hused.first_le hfirst hlast, horigin body⟩
  · intro s hs
    obtain ⟨a, ha, b, hb, hab⟩ := ho.origin s hs
    exact ⟨a, List.mem_append_right _ ha, b, List.mem_append_right _ hb, hab⟩
  · intro s hs
    obtain ⟨a, ha, b, _, _, hab⟩ := ho.origin s hs
    rw [horigin, hab]
    exact hcross last hlast a ha
  · intro t ht hsig
    rcases List.mem_append.mp ht with ht | ht
    · refine ⟨h.finish body, List.mem_cons_self, ?_, ?_⟩
      · rw [horigin]
        exact hused.first_le hfirst ht
      · rw [horigin]
        show t.stop ≤ last.stop
        rw [heq] at ht
        rcases List.mem_append.mp ht with ht | ht
        · have hle := hstop t ht
          omega
        · rcases List.mem_cons.mp ht with rfl | ht
          · exact Int.le_refl _
          · simp [htrailing t ht] at hsig
    · obtain ⟨s, hs, hcov⟩ := ho.covered t ht hsig
      exact ⟨s, List.mem_cons_of_mem _ hs, hcov⟩

namespace ReadsTo

variable {source : String} {strict after : Bool} {T : List Token} {body : List Statement}

theorem fault_at {f : Fault} (h : ReadsTo source strict after T (.error f)) : f.At T := by
  generalize hr : Except.error f = r at h
  induction h with
  | done => cases hr
  | skip _ _ ih => exact (ih hr).mono (List.subset_cons_self _ _)
  | stuck _ hh =>
    cases hr
    exact head_fault hh
  | inside _ hh _ ih =>
    obtain ⟨used, heq, hused⟩ := head_takes hh
    rw [heq]
    exact (ih hr).of_inner hused (List.subset_append_left _ _)
  | behind _ hh _ _ _ ih =>
    obtain ⟨used, heq, _⟩ := head_takes hh
    rw [heq]
    exact (ih hr).mono (List.subset_append_right _ _)
  | cons _ _ _ _ _ _ => cases hr

theorem divides (h : ReadsTo source strict after T (.ok body)) (hT : Ordered T) :
    Divides source T body := by
  induction h using ReadsTo.ok_induction with
  | done => exact ⟨by simp, .nil, by simp⟩
  | @skip after t rest body ht _ ih =>
    have hrest := ih (hT.sublist (List.sublist_cons_self t rest))
    refine ⟨fun s hs => ?_, hrest.follow, fun u hu hsig => ?_⟩
    · obtain ⟨a, ha, b, hb, hab⟩ := hrest.origin s hs
      exact ⟨a, List.mem_cons_of_mem _ ha, b, List.mem_cons_of_mem _ hb, hab⟩
    · rcases List.mem_cons.mp hu with rfl | hu
      · simp [isSignificant, ht] at hsig
      · exact hrest.covered u hu hsig
  | cons _ hh _ _ _ iho =>
    obtain ⟨used, heq, hused⟩ := head_takes hh
    rw [heq] at hT ⊢
    exact .cons hT hused (iho (hT.sublist (List.sublist_append_right _ _)))

/-- The block of a statement is read from a bracket at its end. -/
theorem block (h : ReadsTo source strict after T (.ok body)) (hT : Ordered T) {s : Statement}
    (hs : s ∈ body) {inner : List Statement} (hb : s.body? = some inner) :
    ∃ b ∈ T, b.isBlock = true ∧ s.origin.index < b.index ∧ s.origin.stop = b.stop ∧
      ReadsTo source strict false b.children (.ok inner) := by
  induction h using ReadsTo.ok_induction with
  | done => cases hs
  | @skip after t rest body ht _ ih =>
    obtain ⟨b, hm, hrest⟩ := ih (hT.sublist (List.sublist_cons_self t rest)) hs
    exact ⟨b, List.mem_cons_of_mem _ hm, hrest⟩
  | @cons after t rest h body' others _ hh hi _ _ iho =>
    obtain ⟨used, heq, hused⟩ := head_takes hh
    rw [heq] at hT ⊢
    rcases List.mem_cons.mp hs with rfl | hs
    · obtain ⟨first, _, _, _, hfirst, _, _, horigin⟩ := hused.span
      rcases hused.block with ⟨_, hnone⟩ | ⟨kept, b, rfl, hne, hblock, hinner, hbody⟩
      · cases (hnone body').symm.trans hb
      · obtain ⟨hsome, hstop⟩ := hbody body'
        cases hsome.symm.trans hb
        refine ⟨b, by simp, hblock, ?_, hstop, hinner ▸ hi⟩
        -- something stands before the block, at least the word that starts the statement
        obtain ⟨k, kept, rfl⟩ := List.exists_cons_of_ne_nil hne
        cases hfirst
        have hpairwise := (List.pairwise_append.mp hT.pairwise).1
        have hbefore : first.stop ≤ b.index :=
          (List.pairwise_append.mp hpairwise).2.2 first List.mem_cons_self b List.mem_cons_self
        have hlt := (hT.placed first (by simp)).index_lt_stop
        rw [horigin]
        exact Int.lt_of_lt_of_le hlt hbefore
    · obtain ⟨b, hm, hrest⟩ := iho (hT.sublist (List.sublist_append_right _ _)) hs
      exact ⟨b, List.mem_append_right _ hm, hrest⟩

end ReadsTo

/-- The blocks of a program: its statements, and those of the blocks in them. -/
inductive Statement.Nested : List Statement → List Statement → Prop where
  | here (body : List Statement) : Nested body body
  | into {body inner block : List Statement} {s : Statement} (hs : s ∈ body)
      (hb : s.body? = some inner) (h : Nested inner block) : Nested body block

/-- Every block is read from one list of the forest. -/
theorem ReadsTo.nested {source : String} {strict after : Bool} {T : List Token}
    {body block : List Statement} (h : ReadsTo source strict after T (.ok body)) (hT : Ordered T)
    (hn : Nested body block) :
    ∃ L after', Level T L ∧ ReadsTo source strict after' L (.ok block) := by
  induction hn generalizing after T with
  | here body => exact ⟨T, after, .here T, h⟩
  | into hs hb _ ih =>
    obtain ⟨b, hm, hblock, _, _, hread⟩ := h.block hT hs hb
    rw [← contents_of_inside hblock] at hread
    obtain ⟨L, after', hL, hL'⟩ := ih hread (hT.placed b hm).contents_ordered
    exact ⟨L, after', .into hm hL, hL'⟩

end Abacus
