import Abacus.Expression.Postfix
import Abacus.Expression.Runs
import Abacus.Proofs.Reading.Program

/-! Tokens and statements that the evaluation of a script can meet. All their places are in the
source, its end included, words and numbers are spelled as in a source, and operators have a
precedence. What is read, split or put together from such tokens is made of such tokens again. -/

namespace Abacus

open Token Statement

def Within (n : Nat) (i : Int) : Prop :=
  0 ≤ i ∧ i ≤ n

/-- What was asked for, or a fault inside the source. -/
def Answered {γ : Type} (n : Nat) (P : γ → Prop) : Except Fault γ → Prop
  | .ok v => P v
  | .error f => Within n f.offset

/-- What the text of a token at `index` has to be for its kind. -/
structure Legible (n : Nat) (kind : Kind) (value : String) (index : Int) : Prop where
  word : kind = .word → value ≠ "" ∧ index + value.length ≤ n
  number : kind = .integer ∨ kind = .float → Numeral value ∧ value.length ≤ n + 1
  operator : kind = .operator → value = "!" ∨ (Precedence.of? value).isSome = true

inductive Token.Anchored (n : Nat) : Token → Prop where
  | leaf {kind : Kind} {value : String} {index stop : Int} (hi : Within n index)
      (hs : Within n stop) (hk : Legible n kind value index) :
      Anchored n (.leaf kind value index stop)
  | group {value : String} {index stop : Int} {children : List Token} {opener closer : Token}
      (hi : Within n index) (hs : Within n stop) (hc : ∀ c ∈ children, Anchored n c)
      (hl : Within n closer.index) :
      Anchored n (.group .group value index stop children opener closer)
  | call {value : String} {index stop : Int} {name arguments : Token} (hi : Within n index)
      (hs : Within n stop) (hn : Anchored n name) (ha : Anchored n arguments) :
      Anchored n (.call .call value index stop name arguments)

def AllAnchored (n : Nat) (T : List Token) : Prop :=
  ∀ t ∈ T, t.Anchored n

/-- A statement whose tokens are anchored, also those of its block. -/
inductive Statement.Anchored (n : Nat) : Statement → Prop where
  | intro {s : Statement} (origin : Within n s.origin.index) (parts : AllAnchored n s.parts)
      (body : ∀ body, s.body? = some body → ∀ u ∈ body, u.Anchored n) : s.Anchored n

variable {n : Nat} {T : List Token} {t : Token}

theorem Legible.numeral {value : String} {index : Int} (h : Numeral value)
    (hl : value.length ≤ n + 1) : Legible n .integer value index :=
  ⟨nofun, fun _ => ⟨h, hl⟩, nofun⟩

theorem AllAnchored.nil : AllAnchored n [] :=
  fun _ ht => nomatch ht

theorem AllAnchored.cons (ht : t.Anchored n) (h : AllAnchored n T) : AllAnchored n (t :: T) :=
  List.forall_mem_cons.mpr ⟨ht, h⟩

namespace Token.Anchored

theorem index_within (h : t.Anchored n) : Within n t.index := by
  cases h <;> assumption

theorem stop_within (h : t.Anchored n) : Within n t.stop := by
  cases h <;> assumption

theorem children_anchored (h : t.Anchored n) : AllAnchored n t.children := by
  cases h with
  | leaf _ _ _ => exact .nil
  | group _ _ hc _ => exact hc
  | call _ _ _ _ => exact .nil

theorem contents_anchored (h : t.Anchored n) : AllAnchored n t.contents := by
  cases h with
  | leaf _ _ _ => exact .nil
  | group _ _ hc _ => exact hc
  | call _ _ _ ha => exact ha.children_anchored

theorem closer_within (h : t.Anchored n) : Within n t.closerIndex := by
  cases h with
  | leaf _ hs _ => exact hs
  | group _ _ _ hl => exact hl
  | call _ hs _ _ => exact hs

theorem legible (h : t.Anchored n) : Legible n t.kind t.value t.index := by
  cases h with
  | leaf _ _ hk => exact hk
  | group _ _ _ _ =>
    show Legible n .group _ _
    exact ⟨nofun, by simp, nofun⟩
  | call _ _ _ _ =>
    show Legible n .call _ _
    exact ⟨nofun, by simp, nofun⟩

end Token.Anchored

theorem AllAnchored.subset {T' : List Token} (h : AllAnchored n T) (hs : T' ⊆ T) :
    AllAnchored n T' :=
  fun t ht => h t (hs ht)

theorem AllAnchored.level {L : List Token} (h : AllAnchored n T) (hL : Level T L) :
    AllAnchored n L := by
  induction hL with
  | here => exact h
  | into hs _ ih => exact ih (h _ hs).contents_anchored

theorem AllAnchored.fault {f : Fault} (h : AllAnchored n T) (hf : f.At T) :
    Within n f.offset := by
  obtain ⟨t, ⟨L, hL, ht⟩, hoffset, _⟩ := hf
  rw [hoffset]
  exact (h.level hL t ht).index_within

section Source

variable {source : String} {strict : Bool}

theorem precedence_of_operator {text : List Char} (h : Kind.Spells .operator text) :
    String.ofList text = "!" ∨ (Precedence.of? (String.ofList text)).isSome = true := by
  obtain ⟨c, ⟨hc, rfl⟩ | ⟨hc, rfl⟩⟩ := h
  · simp only [isOperatorChar, List.mem_cons, List.not_mem_nil, or_false, decide_eq_true_eq] at hc
    rcases hc with rfl | rfl | rfl | rfl | rfl | rfl | rfl | rfl | rfl <;> decide
  · simp only [isComparisonChar, List.mem_cons, List.not_mem_nil, or_false,
      decide_eq_true_eq] at hc
    rcases hc with rfl | rfl | rfl | rfl <;> decide

theorem Lexed.legible (h : Lexed source.toList t) (hn : t.IsNumber → Numeral t.value) :
    Legible source.length t.kind t.value t.index := by
  have hproper := h.proper
  have hstart := h.start
  have hwithin := h.within
  have hlen := length_sliceChars hstart (Int.le_of_lt hproper) hwithin
  rw [String.length_toList] at hwithin
  have htext : t.kind ≠ .float →
      t.value = String.ofList (Text.sliceChars source.toList t.index t.stop) := by
    intro hk
    rw [h.value, Kind.valueOf, if_neg hk]
  refine ⟨fun hk => ?_, fun hk => ⟨hn hk, ?_⟩, fun hk => ?_⟩
  · have hv := htext (by simp [hk])
    have hvalue := h.value_pos
    simp only [Token.length] at hvalue
    refine ⟨fun hnil => ?_, ?_⟩
    · rw [hnil] at hvalue
      exact absurd hvalue (by decide)
    · rw [hv, String.length_ofList, hlen]
      omega
  · by_cases hf : t.kind = .float
    · have hle := List.length_filter_le (!Text.isGap ·)
        (Text.sliceChars source.toList t.index t.stop)
      rw [h.value, String.length_ofList, Kind.valueOf, if_pos hf, List.length_append]
      split <;> simp only [List.length_cons, List.length_nil] <;> omega
    · rw [htext hf, String.length_ofList, hlen]
      omega
  · rw [htext (by simp [hk])]
    exact precedence_of_operator (hk ▸ h.spells)

theorem scan_anchored (h : t ∈ scan source) : t.Anchored source.length := by
  have hl := scan_lexed source h
  have hproper := hl.proper
  have hstart := hl.start
  have hwithin := hl.within
  rw [String.length_toList] at hwithin
  have hnumber : t.IsNumber → Numeral t.value := by
    cases scan_reads source t h with
    | intro hn _ => exact hn
  have hlegible := hl.legible hnumber
  cases t with
  | leaf kind value index stop =>
    simp only [Token.index, Token.stop] at hproper hstart hwithin
    exact .leaf ⟨hstart, by omega⟩ ⟨by omega, hwithin⟩ hlegible
  | group => exact (scan_isLeaf source _ h).elim
  | call => exact (scan_isLeaf source _ h).elim

theorem Token.Grouped.span_within (h : Grouped source strict t)
    (hs : ∀ u ∈ flatten t, u ∈ scan source) :
    Within source.length t.index ∧ Within source.length t.stop := by
  obtain ⟨first, last, hfirst, hlast, hindex, hstop⟩ := h.ends
  rw [← hindex, ← hstop]
  exact ⟨(scan_anchored (hs _ (List.mem_of_mem_head? hfirst))).index_within,
    (scan_anchored (hs _ (List.mem_of_mem_getLast? hlast))).stop_within⟩

theorem Token.Grouped.anchored (h : Grouped source strict t)
    (hs : ∀ u ∈ flatten t, u ∈ scan source) : t.Anchored source.length := by
  have hspan := h.span_within hs
  induction h with
  | leaf _ => exact scan_anchored (hs _ List.mem_cons_self)
  | @group children opener closer _ _ hg _ _ ih =>
    refine .group hspan.1 hspan.2 (fun c hc => ?_) ?_
    · have hsub : ∀ u ∈ flatten c, u ∈ scan source := by
        intro u hu
        have hm := (flatten_sublist hc).subset hu
        exact hs u (by simp [flatten, hm])
      exact ih c hc hsub ((hg c hc).span_within hsub)
    · exact (scan_anchored (hs closer (by simp [flatten]))).index_within
  | @call name arguments _ _ _ hg ih =>
    have hsub : ∀ u ∈ flatten arguments, u ∈ scan source :=
      fun u hu => hs u (List.mem_cons_of_mem _ hu)
    exact .call hspan.1 hspan.2 (scan_anchored (hs name List.mem_cons_self))
      (ih hsub (hg.span_within hsub))

theorem ForestOf.anchored {F : List Token} (h : ForestOf source strict F) :
    AllAnchored source.length F := by
  intro t ht
  refine (h.wellFormed.grouped t ht).anchored (fun u hu => ?_)
  rw [← h.flat]
  exact (flatten_sublist ht).subset hu

end Source

section Reading

variable {source : String} {strict : Bool}

theorem Token.From.anchored {used : List Token} (h : From used t) (hu : AllAnchored n used) :
    t.Anchored n := by
  cases h with
  | taken h => exact hu t h
  | called h =>
    cases hu _ h with
    | call _ _ hn _ => exact hn
  | @one u h =>
    have hu := hu u h
    exact .leaf hu.index_within hu.stop_within (.numeral numeral_one (Nat.le_add_left 1 n))
  | bracket hstart hstop hrun =>
    obtain ⟨a, ha, hstart⟩ := hstart
    obtain ⟨b, hb, rfl⟩ := hstop
    have hle := (hu b hb).stop_within
    refine .group ?_ hle (hu.subset hrun) hle
    rcases hstart with rfl | rfl
    · exact (hu a ha).index_within
    · exact (hu a ha).stop_within

/-- The statements that are read from anchored tokens are anchored. -/
theorem ReadsTo.anchored {after : Bool} {body : List Statement}
    (h : ReadsTo source strict after T (.ok body)) (hT : AllAnchored n T) :
    ∀ s ∈ body, s.Anchored n := by
  induction h using ReadsTo.ok_induction with
  | done => exact fun _ hs => nomatch hs
  | skip _ _ ih => exact ih (hT.subset (List.subset_cons_self _ _))
  | @cons after t rest h body others _ hh _ _ ihi iho =>
    obtain ⟨used, heq, hused⟩ := head_takes hh
    rw [heq] at hT
    have hu : AllAnchored n used := hT.subset (List.subset_append_left _ _)
    have hothers := iho (hT.subset (List.subset_append_right _ _))
    refine List.forall_mem_cons.mpr ⟨.intro ?_ ?_ ?_, hothers⟩
    · obtain ⟨first, _, _, _, hfirst, _, _, horigin⟩ := hused.span
      rw [horigin]
      exact (hu first (List.mem_of_mem_head? hfirst)).index_within
    · exact fun u hp => (hused.parts body u hp).anchored hu
    · intro inner hinner
      rcases hused.block with ⟨_, hnone⟩ | ⟨kept, block, rfl, _, _, hchildren, hbody⟩
      · cases (hnone body).symm.trans hinner
      · cases (hbody body).1.symm.trans hinner
        refine ihi ?_
        rw [hchildren]
        exact (hu block (by simp)).children_anchored

theorem ofTokens_anchored (source : String) (strict : Bool) (hT : AllAnchored n T) :
    Answered n (fun body => ∀ s ∈ body, s.Anchored n) (ofTokens source strict T) := by
  have hread := ofTokens_readsTo source strict T
  cases hb : ofTokens source strict T with
  | ok body =>
    rw [hb] at hread
    exact hread.anchored hT
  | error f =>
    rw [hb] at hread
    exact hT.fault hread.fault_at

theorem Program.parse_anchored {p : Program} (h : Program.parse source strict = .ok p) :
    ∀ s ∈ p.body, s.Anchored source.length := by
  obtain ⟨F, hg, hread⟩ := Program.parse_ok h
  exact hread.anchored (groupAll_forestOf hg).anchored

end Reading

section Words

variable {isFunction : String → Bool}

theorem letters_anchored {index : Int} {cs : List Char} (hi : 0 ≤ index)
    (hl : index + cs.length ≤ n) : AllAnchored n (letters index cs) := by
  induction cs generalizing index with
  | nil => exact .nil
  | cons c cs ih =>
    simp only [List.length_cons] at hl
    refine .cons (.leaf ⟨hi, by omega⟩ ⟨by omega, by omega⟩ ?_) ?_
    · refine ⟨fun _ => ⟨?_, ?_⟩, by simp, nofun⟩
      · exact fun h => by simpa using congrArg String.length h
      · simp only [String.length_ofList, List.length_cons, List.length_nil]
        omega
    · exact ih (by omega) (by omega)

theorem splitLong_anchored (hT : AllAnchored n T) : AllAnchored n (splitLong isFunction T) := by
  induction T with
  | nil => exact hT
  | cons t rest ih =>
    obtain ⟨ht, hrest⟩ := List.forall_mem_cons.mp hT
    have hkept : AllAnchored n (t :: splitLong isFunction rest) := .cons ht (ih hrest)
    unfold splitLong
    split
    · exact hkept
    · next hlong =>
      split
      · exact hkept
      · simp only [ne_eq, not_or, not_not] at hlong
        have hword := (ht.legible.word hlong.1).2
        intro u hu
        rcases List.mem_append.mp hu with hu | hu
        · refine letters_anchored ht.index_within.1 ?_ u hu
          rw [String.length_toList]
          exact hword
        · exact ih hrest u hu

theorem splitLong_ne_nil (hT : AllAnchored n T) (hne : T ≠ []) : splitLong isFunction T ≠ [] := by
  cases T with
  | nil => exact absurd rfl hne
  | cons t rest =>
    unfold splitLong
    split
    · simp
    · next hlong =>
      split
      · simp
      · simp only [ne_eq, not_or, not_not] at hlong
        have hword := ((hT t List.mem_cons_self).legible.word hlong.1).1
        cases hv : t.value.toList with
        | nil => exact absurd (String.toList_eq_nil_iff.mp hv) hword
        | cons c cs => simp [letters]

theorem fuseOnto_anchored {before : List Token} (hb : AllAnchored n before) (ht : t.Anchored n) :
    AllAnchored n (fuseOnto isFunction before t) := by
  unfold fuseOnto
  split
  · next name rest =>
    obtain ⟨hname, hrest⟩ := List.forall_mem_cons.mp hb
    split
    · exact .cons (.call hname.index_within ht.stop_within hname ht) hrest
    · exact .cons ht hb
  · exact .cons ht .nil

theorem fuseOnto_ne_nil (before : List Token) (t : Token) :
    fuseOnto isFunction before t ≠ [] := by
  unfold fuseOnto
  split
  · split <;> simp
  · simp

theorem foldl_fuseOnto_anchored {before : List Token} (hT : AllAnchored n T)
    (hb : AllAnchored n before) : AllAnchored n (T.foldl (fuseOnto isFunction) before) := by
  induction T generalizing before with
  | nil => exact hb
  | cons t rest ih =>
    obtain ⟨ht, hrest⟩ := List.forall_mem_cons.mp hT
    exact ih hrest (fuseOnto_anchored hb ht)

theorem foldl_fuseOnto_ne_nil {before : List Token} (h : T ≠ [] ∨ before ≠ []) :
    T.foldl (fuseOnto isFunction) before ≠ [] := by
  induction T generalizing before with
  | nil => simpa using h
  | cons t rest ih => exact ih (.inr (fuseOnto_ne_nil before t))

/-- Splitting the words of a line leaves a line. -/
theorem splitWords_anchored (hT : AllAnchored n T) : AllAnchored n (splitWords isFunction T) := by
  intro t ht
  exact foldl_fuseOnto_anchored (splitLong_anchored hT) .nil t (List.mem_reverse.mp ht)

theorem splitWords_ne_nil (hT : AllAnchored n T) (hne : T ≠ []) :
    splitWords isFunction T ≠ [] := by
  intro h
  exact foldl_fuseOnto_ne_nil (.inl (splitLong_ne_nil hT hne)) (List.reverse_eq_nil_iff.mp h)

end Words

section Arguments

variable {closer : Int}

theorem splitFrom_error {current : List Token} {f : Fault} (hT : AllAnchored n T)
    (hc : Within n closer) (h : splitFrom closer current T = .error f) : Within n f.offset := by
  induction T generalizing current with
  | nil =>
    simp only [splitFrom] at h
    split at h
    · cases h
      exact hc
    · cases h
  | cons t rest ih =>
    obtain ⟨ht, hrest⟩ := List.forall_mem_cons.mp hT
    simp only [splitFrom] at h
    split at h
    · split at h
      · cases h
        exact ht.index_within
      · cases hs : splitFrom closer [] rest with
        | error f' =>
          rw [hs] at h
          cases h
          exact ih hrest hs
        | ok others =>
          rw [hs] at h
          cases h
    · exact ih hrest h

theorem splitArguments_anchored (hT : AllAnchored n T) (hc : Within n closer) :
    Answered n (fun runs => ∀ run ∈ runs, AllAnchored n run) (splitArguments closer T) := by
  have hfilter : AllAnchored n (T.filter (fun t => !t.isNewline)) :=
    hT.subset (fun _ ht => (List.mem_filter.mp ht).1)
  cases hs : splitArguments closer T with
  | ok runs =>
    intro run hr
    obtain ⟨P, S, hsplit, _⟩ := splitArguments_between hs hr
    rw [hsplit] at hfilter
    exact hfilter.subset (fun u hu => by simp [hu])
  | error f =>
    unfold splitArguments at hs
    split at hs
    · cases hs
    · exact splitFrom_error hfilter hc hs

end Arguments

end Abacus
