import Abacus.Eval.Expression
import Abacus.Proofs.Forest.Basic

/-! Runs of tokens that are read as blocks. A run is an excerpt of one list of the forest, in which
ends of lines and backslashes may be missing; what stands before its first token tells which. So the
places where a run starts and stops tell the run. -/

namespace Abacus

open Token

/-- A token that is no end of a line and does not join lines. -/
def Token.isSignificant (t : Token) : Bool :=
  !t.isTerminator && !t.isSymbol "\\"

theorem not_newline_of_significant {t : Token} (h : t.isSignificant = true) :
    t.isNewline = false := by
  simp only [isSignificant, isTerminator, Bool.and_eq_true, Bool.not_eq_true',
    Bool.or_eq_false_iff] at h
  exact h.1.1

theorem significant_of_kind {t : Token} (h : t.kind ≠ .symbol) : t.isSignificant = true := by
  simp [isSignificant, isTerminator, isSymbol, is, h]

theorem filter_not_newline_filter (L : List Token) :
    (L.filter (fun t => !t.isNewline)).filter isSignificant = L.filter isSignificant := by
  rw [List.filter_filter]
  refine List.filter_congr (fun t _ => ?_)
  cases h : t.isSignificant with
  | false => rfl
  | true => simp [not_newline_of_significant h]

/-- Tokens that follow each other in a list, up to ends of lines and backslashes. -/
def Excerpt (L T : List Token) : Prop :=
  ∃ P S, (P ++ T ++ S).Sublist L ∧
    L.filter isSignificant = (P ++ T ++ S).filter isSignificant

namespace Excerpt

variable {L T : List Token}

theorem refl (L : List Token) : Excerpt L L :=
  ⟨[], [], by simp, by simp⟩

theorem subset (h : Excerpt L T) {t : Token} (ht : t ∈ T) : t ∈ L := by
  obtain ⟨P, S, hs, _⟩ := h
  exact hs.subset (by simp [ht])

theorem thin {A B T' : List Token} (h : Excerpt L (A ++ T ++ B)) (hs : T'.Sublist T)
    (hf : T'.filter isSignificant = T.filter isSignificant) : Excerpt L T' := by
  obtain ⟨P, S, hsub, hfilter⟩ := h
  refine ⟨P ++ A, B ++ S, ?_, ?_⟩
  · have hpart : (P ++ A ++ T' ++ (B ++ S)).Sublist (P ++ A ++ T ++ (B ++ S)) :=
      ((List.Sublist.refl _).append hs).append (.refl _)
    have heq : P ++ A ++ T ++ (B ++ S) = P ++ (A ++ T ++ B) ++ S := by simp
    exact (heq ▸ hpart).trans hsub
  · rw [hfilter]
    simp [hf]

theorem drop {A : List Token} (h : Excerpt L (A ++ T)) : Excerpt L T := by
  have hh : Excerpt L (A ++ T ++ []) := by simpa using h
  exact hh.thin (.refl T) rfl

theorem significant {A D B : List Token} (h : Excerpt L (A ++ D ++ B)) :
    Excerpt L (D.filter isSignificant) :=
  h.thin List.filter_sublist (by simp)

end Excerpt

/-- The tokens of a list that cover places from `start` to `stop`. -/
def span (start stop : Int) (L : List Token) : List Token :=
  L.filter (fun t => start ≤ t.index ∧ t.stop ≤ stop)

theorem span_of_ordered {first : Token} {rest : List Token} (h : Ordered (first :: rest)) :
    ∀ t ∈ first :: rest, first.index ≤ t.index ∧ t.stop ≤ stopOf (first :: rest) first.stop := by
  intro t ht
  constructor
  · rcases List.mem_cons.mp ht with rfl | hr
    · exact Int.le_refl _
    · have hlt := (h.placed first List.mem_cons_self).index_lt_stop
      have hbefore : first.stop ≤ t.index := (List.pairwise_cons.mp h.pairwise).1 t hr
      omega
  · obtain ⟨init, last, heq⟩ := (first :: rest).eq_nil_or_concat.resolve_left (by simp)
    rw [List.concat_eq_append] at heq
    have hstop : stopOf (first :: rest) first.stop = last.stop := by simp [stopOf, heq]
    rw [hstop]
    rw [heq] at h ht
    rcases List.mem_append.mp ht with hi | hl
    · have hbefore : t.stop ≤ last.index :=
        (List.pairwise_append.mp h.pairwise).2.2 t hi last (by simp)
      have hlt := (h.placed last (by simp)).index_lt_stop
      omega
    · exact Int.le_of_eq (congrArg Token.stop (List.mem_singleton.mp hl))

theorem stopOf_mem (first : Token) (rest : List Token) :
    ∃ last ∈ first :: rest, stopOf (first :: rest) first.stop = last.stop := by
  obtain ⟨init, last, heq⟩ := (first :: rest).eq_nil_or_concat.resolve_left (by simp)
  rw [List.concat_eq_append] at heq
  exact ⟨last, by simp [heq], by simp [stopOf, heq]⟩

theorem filter_eq_span {L P S rest : List Token} {first : Token} (hL : Ordered L)
    (hs : (P ++ (first :: rest) ++ S).Sublist L) (keep : Token → Bool)
    (hf : L.filter keep = (P ++ (first :: rest) ++ S).filter keep) :
    (first :: rest).filter keep =
      span first.index (stopOf (first :: rest) first.stop) (L.filter keep) := by
  have ho := hL.sublist hs
  have hpair := List.pairwise_append.mp ho.pairwise
  have hpair' := List.pairwise_append.mp hpair.1
  have hrun : Ordered (first :: rest) :=
    ho.sublist ((List.sublist_append_right _ _).trans (List.sublist_append_left _ _))
  have hspan := span_of_ordered hrun
  obtain ⟨last, hlast, hstop⟩ := stopOf_mem first rest
  have hbefore : span first.index (stopOf (first :: rest) first.stop) (P.filter keep) = [] := by
    refine List.filter_eq_nil_iff.mpr (fun t ht => ?_)
    have hmem := (List.mem_filter.mp ht).1
    have hle : t.stop ≤ first.index := hpair'.2.2 t hmem first (by simp)
    have hlt := (ho.placed t (by simp [hmem])).index_lt_stop
    simp only [decide_eq_true_eq]
    omega
  have hafter : span first.index (stopOf (first :: rest) first.stop) (S.filter keep) = [] := by
    refine List.filter_eq_nil_iff.mpr (fun t ht => ?_)
    have hmem := (List.mem_filter.mp ht).1
    have hle : last.stop ≤ t.index := hpair.2.2 last (List.mem_append_right _ hlast) t hmem
    have hlt := (ho.placed t (by simp [hmem])).index_lt_stop
    simp only [decide_eq_true_eq]
    omega
  have hinside : span first.index (stopOf (first :: rest) first.stop)
      ((first :: rest).filter keep) = (first :: rest).filter keep := by
    refine List.filter_eq_self.mpr (fun t ht => ?_)
    simpa using hspan t ((List.mem_filter.mp ht).1)
  rw [hf, List.filter_append, List.filter_append]
  simp only [span, List.filter_append] at hbefore hafter hinside ⊢
  rw [hbefore, hafter, hinside]
  simp

/-- The last significant token of a list that starts before a place. -/
def lastBefore (L : List Token) (start : Int) : Option Token :=
  ((L.filter isSignificant).filter (fun t => t.index < start)).getLast?

/-- What can be said of a run of `L` that starts at a place: it holds no block, or it is a line
behind a token that is no comma, or it is what stands between brackets or commas. -/
inductive Shape (L R : List Token) (start : Int) : Prop where
  | plain (h : ∀ t ∈ R, t.isBlock = false)
  | line (h : ∀ t ∈ R, t.isSignificant = true) {x : Token} (hx : lastBefore L start = some x)
      (hc : x.isSymbol "," = false)
  | between (h : ∃ P S, L.filter (fun t => !t.isNewline) = P ++ R ++ S)
      (hx : ∀ x, lastBefore L start = some x → x.isSymbol "," = true)

theorem Excerpt.significant_eq {L rest : List Token} {first : Token} (hL : Ordered L)
    (h : Excerpt L (first :: rest)) : (first :: rest).filter isSignificant =
      span first.index (stopOf (first :: rest) first.stop) (L.filter isSignificant) := by
  obtain ⟨P, S, hs, hf⟩ := h
  exact filter_eq_span hL hs isSignificant hf

theorem between_eq {L P S rest : List Token} {first : Token} (hL : Ordered L)
    (h : L.filter (fun t => !t.isNewline) = P ++ (first :: rest) ++ S) :
    first :: rest = span first.index (stopOf (first :: rest) first.stop)
      (L.filter (fun t => !t.isNewline)) := by
  have hs : (P ++ (first :: rest) ++ S).Sublist L := h ▸ List.filter_sublist
  have hself : (P ++ (first :: rest) ++ S).filter (fun t => !t.isNewline) =
      P ++ (first :: rest) ++ S := by rw [← h, List.filter_filter]; simp
  have hrun : (first :: rest).filter (fun t => !t.isNewline) = first :: rest := by
    refine List.filter_eq_self.mpr (fun t ht => ?_)
    have hmem : t ∈ L.filter (fun t => !t.isNewline) := by
      rw [h]
      exact List.mem_append_left _ (List.mem_append_right _ ht)
    exact (List.mem_filter.mp hmem).2
  have heq := filter_eq_span hL hs (fun t => !t.isNewline) (h.trans hself.symm)
  rwa [hrun] at heq

/-- Two runs that start and stop at the same places are the same if one of them holds a block. -/
theorem Shape.unique {L rest rest' : List Token} {first first' : Token} (hL : Ordered L)
    (he : Excerpt L (first :: rest)) (he' : Excerpt L (first' :: rest'))
    (hi : first.index = first'.index)
    (hs : stopOf (first :: rest) first.stop = stopOf (first' :: rest') first'.stop)
    (h : Shape L (first :: rest) first.index) (h' : Shape L (first' :: rest') first'.index)
    {b : Token} (hb : b ∈ first' :: rest') (hblock : b.isBlock = true) :
    first :: rest = first' :: rest' := by
  have hsame : (first :: rest).filter isSignificant = (first' :: rest').filter isSignificant := by
    rw [he.significant_eq hL, he'.significant_eq hL, hi, hs]
  have hplaced := hL.placed b (he'.subset hb)
  have hkind : b.isSignificant = true := by
    obtain ⟨inner, hinner⟩ := Option.isSome_iff_exists.mp hblock
    have hgroup := (hplaced.kind_of_inside hinner).1
    exact significant_of_kind (by simp [hgroup])
  have hmem : b ∈ first :: rest := by
    have hb' : b ∈ (first' :: rest').filter isSignificant := List.mem_filter.mpr ⟨hb, hkind⟩
    rw [← hsame] at hb'
    exact (List.mem_filter.mp hb').1
  have hall : ∀ {R : List Token}, (∀ t ∈ R, t.isSignificant = true) →
      R.filter isSignificant = R := fun hr => List.filter_eq_self.mpr hr
  cases h with
  | plain hp => simp [hp b hmem] at hblock
  | line hl hx hc =>
    cases h' with
    | plain hp => simp [hp b hb] at hblock
    | line hl' _ _ => rw [← hall hl, ← hall hl', hsame]
    | between _ hx' =>
      have hcomma := hx' _ (hi ▸ hx)
      simp [hcomma] at hc
  | between hp hx =>
    cases h' with
    | plain hp => simp [hp b hb] at hblock
    | line _ hx' hc' =>
      have hcomma := hx _ (hi ▸ hx')
      simp [hcomma] at hc'
    | between hp' _ =>
      obtain ⟨P, S, hp⟩ := hp
      obtain ⟨P', S', hp'⟩ := hp'
      rw [between_eq hL hp, between_eq hL hp', hi, hs]

theorem lastBefore_eq {L P S rest : List Token} {first : Token} (hL : Ordered L)
    (hs : (P ++ (first :: rest) ++ S).Sublist L)
    (hf : L.filter isSignificant = (P ++ (first :: rest) ++ S).filter isSignificant) :
    lastBefore L first.index = (P.filter isSignificant).getLast? := by
  have ho := hL.sublist hs
  have hpair := List.pairwise_append.mp ho.pairwise
  have hpair' := List.pairwise_append.mp hpair.1
  have hfirst := (ho.placed first (by simp)).index_lt_stop
  have hbefore : (P.filter isSignificant).filter (fun t => t.index < first.index) =
      P.filter isSignificant := by
    refine List.filter_eq_self.mpr (fun t ht => ?_)
    have hmem := (List.mem_filter.mp ht).1
    have hle : t.stop ≤ first.index := hpair'.2.2 t hmem first (by simp)
    have hlt := (ho.placed t (by simp [hmem])).index_lt_stop
    simp only [decide_eq_true_eq]
    omega
  have hrun : ((first :: rest).filter isSignificant).filter (fun t => t.index < first.index) =
      [] := by
    refine List.filter_eq_nil_iff.mpr (fun t ht => ?_)
    have hspan := span_of_ordered (ho.sublist
      ((List.sublist_append_right P _).trans (List.sublist_append_left _ S)))
    have hle := (hspan t (List.mem_filter.mp ht).1).1
    simp only [decide_eq_true_eq]
    omega
  have hafter : (S.filter isSignificant).filter (fun t => t.index < first.index) = [] := by
    refine List.filter_eq_nil_iff.mpr (fun t ht => ?_)
    have hle : first.stop ≤ t.index := hpair.2.2 first (by simp) t (List.mem_filter.mp ht).1
    simp only [decide_eq_true_eq]
    omega
  rw [lastBefore, hf]
  simp only [List.filter_append] at hbefore hrun hafter ⊢
  rw [hbefore, hrun, hafter]
  simp

theorem Excerpt.line_shape {L A D B : List Token} {x : Token} (hL : Ordered L)
    (h : Excerpt L (A ++ [x] ++ D ++ B)) (hx : x.isSignificant = true)
    (hc : x.isSymbol "," = false) {first : Token} {rest : List Token}
    (hD : D.filter isSignificant = first :: rest) : Shape L (first :: rest) first.index := by
  obtain ⟨P, S, hs, hf⟩ := h
  have hsub : (P ++ A ++ [x] ++ (first :: rest) ++ (B ++ S)).Sublist L := by
    have hrun : (first :: rest).Sublist D := hD ▸ List.filter_sublist
    have hpart : (P ++ A ++ [x] ++ (first :: rest) ++ (B ++ S)).Sublist
        (P ++ A ++ [x] ++ D ++ (B ++ S)) := ((List.Sublist.refl _).append hrun).append (.refl _)
    have heq : P ++ A ++ [x] ++ D ++ (B ++ S) = P ++ (A ++ [x] ++ D ++ B) ++ S := by simp
    exact (heq ▸ hpart).trans hs
  have hall : ∀ t ∈ first :: rest, t.isSignificant = true := by
    intro t ht
    rw [← hD] at ht
    exact (List.mem_filter.mp ht).2
  have hfilter : L.filter isSignificant =
      (P ++ A ++ [x] ++ (first :: rest) ++ (B ++ S)).filter isSignificant := by
    rw [hf, ← hD]
    simp only [List.filter_append, List.filter_filter, Bool.and_self, List.append_assoc]
  refine .line hall (x := x) ?_ hc
  rw [lastBefore_eq hL hsub hfilter]
  simp [hx]

/-- Tokens that follow each other in a list in which the ends of lines are left out, from the
beginning or from a comma on. -/
theorem between_shape {L P S rest : List Token} {first : Token} (hL : Ordered L)
    (h : L.filter (fun t => !t.isNewline) = P ++ (first :: rest) ++ S)
    (hP : ∀ x, P.getLast? = some x → x.isSymbol "," = true) :
    Excerpt L (first :: rest) ∧ Shape L (first :: rest) first.index := by
  have hs : (P ++ (first :: rest) ++ S).Sublist L := h ▸ List.filter_sublist
  have hf : L.filter isSignificant = (P ++ (first :: rest) ++ S).filter isSignificant := by
    rw [← h, filter_not_newline_filter]
  refine ⟨⟨P, S, hs, hf⟩, .between ⟨P, S, h⟩ (fun x hx => ?_)⟩
  rw [lastBefore_eq hL hs hf] at hx
  rcases P.eq_nil_or_concat with rfl | ⟨init, c, rfl⟩
  · simp at hx
  · have hcomma : c.isSymbol "," = true := hP c (by simp)
    have hsig : c.isSignificant = true := by
      simp only [isSymbol, is, Bool.and_eq_true, beq_iff_eq] at hcomma
      simp [isSignificant, isTerminator, isSymbol, is, hcomma.2]
    have hlast : x = c := by simpa [hsig, eq_comm] using hx
    exact hlast ▸ hcomma

def InForest (F : List Token) (t : Token) : Prop :=
  ∃ L, Level F L ∧ t ∈ L

/-- A run that is read as a block, from one list of a forest. -/
def BlockRun (F R : List Token) : Prop :=
  ∃ L first rest, Level F L ∧ R = first :: rest ∧ Eval.startsBlock first = true ∧ Excerpt L R ∧
    Shape L R first.index

/-- Tokens of a forest; if they start with the word of a block, they are a run. -/
structure Plain (F R : List Token) : Prop where
  tokens : ∀ t ∈ R, InForest F t
  block : ∀ first rest, R.filter (fun t => !t.isNewline) = first :: rest →
    Eval.startsBlock first = true → BlockRun F (first :: rest)

/-- What may be read as the block from a place: what is inside braces there, or a run that starts
and stops there. -/
inductive Keyed (F : List Token) : Int × Int → List Token → Prop where
  | braces {t : Token} (h : InForest F t) (hk : t.kind = .group) :
      Keyed F (t.index, t.stop) t.contents
  | run {first : Token} {rest : List Token} (h : BlockRun F (first :: rest)) :
      Keyed F (first.index, stopOf (first :: rest) first.stop) (first :: rest)

theorem startsBlock_cases {t : Token} (h : Eval.startsBlock t = true) :
    t.kind = .word ∧ (t.value = "if" ∨ t.value = "repeat" ∨ t.value = "loop") := by
  simp only [Eval.startsBlock, is, Bool.or_eq_true, Bool.and_eq_true, beq_iff_eq] at h
  rcases h with (h | h) | h
  · exact ⟨h.1, .inl h.2⟩
  · exact ⟨h.1, .inr (.inl h.2)⟩
  · exact ⟨h.1, .inr (.inr h.2)⟩

/-- A place and a block that is read from it tell all that may be read from it. -/
theorem Keyed.unique {F R R' : List Token} {key : Int × Int} (hF : Ordered F) (h : Keyed F key R)
    (h' : Keyed F key R') (hb : ∀ first rest, R' = first :: rest → Eval.startsBlock first = true →
      ∃ b ∈ R', b.isBlock = true) : R = R' := by
  -- the list of a token and its place tell the token
  have hsame : ∀ {s t : Token}, InForest F s → InForest F t → s.index = t.index → s = t := by
    rintro s t ⟨L, hL, hs⟩ ⟨L', hL', ht⟩ hi
    obtain rfl := hL.unique hL' hF hs ht hi
    have ho := hL.ordered hF
    have hlt := (ho.placed s hs).index_lt_stop
    have hlt' := (ho.placed t ht).index_lt_stop
    exact ho.eq_of_covers hs ht (i := s.index) (by omega) (by omega)
  have hfirst : ∀ {first : Token} {rest : List Token}, BlockRun F (first :: rest) →
      InForest F first ∧ first.kind = .word := by
    rintro first rest ⟨L, _, _, hL, ⟨⟩, hstarts, he, _⟩
    exact ⟨⟨L, hL, he.subset List.mem_cons_self⟩, (startsBlock_cases hstarts).1⟩
  cases h with
  | @braces t ht hk =>
    generalize hkey : (t.index, t.stop) = key at h'
    cases h' with
    | @braces t' ht' hk' =>
      obtain ⟨hi, _⟩ := Prod.mk.inj hkey
      rw [hsame ht ht' hi]
    | @run first rest hr =>
      obtain ⟨hi, _⟩ := Prod.mk.inj hkey
      obtain ⟨hin, hword⟩ := hfirst hr
      rw [← hsame ht hin hi, hk] at hword
      cases hword
  | @run first rest hr =>
    generalize hkey : (first.index, stopOf (first :: rest) first.stop) = key at h'
    cases h' with
    | @braces t ht hk =>
      obtain ⟨hi, _⟩ := Prod.mk.inj hkey
      obtain ⟨hin, hword⟩ := hfirst hr
      rw [hsame hin ht hi, hk] at hword
      cases hword
    | @run first' rest' hr' =>
      obtain ⟨hi, hstop⟩ := Prod.mk.inj hkey
      obtain ⟨L, _, _, hL, ⟨⟩, hstarts, he, hshape⟩ := hr
      obtain ⟨L', _, _, hL', ⟨⟩, hstarts', he', hshape'⟩ := hr'
      obtain rfl := hL.unique hL' hF (he.subset List.mem_cons_self)
        (he'.subset List.mem_cons_self) hi
      obtain ⟨b, hmem, hblock⟩ := hb first' rest' rfl hstarts'
      exact Shape.unique (hL.ordered hF) he he' hi hstop hshape hshape' hmem hblock

end Abacus
