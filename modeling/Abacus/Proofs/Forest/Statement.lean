import Abacus.Proofs.Forest.Runs
import Abacus.Proofs.Simulation.Basic

/-! Statements that are read from a forest. Whatever is read, the token runs in it are lines, or
parts of lines, of one list of the forest. -/

namespace Abacus

open Token Statement

variable {F T : List Token}

theorem lineFrom_eq (pending : Nat) (T : List Token) : ∃ D, T = D ++ (lineFrom pending T).2 ∧
    (lineFrom pending T).1 = D.filter isSignificant := by
  induction T generalizing pending with
  | nil => exact ⟨[], rfl, rfl⟩
  | cons t rest ih =>
    unfold lineFrom
    split
    · next ht =>
      cases pending with
      | zero => exact ⟨[], rfl, rfl⟩
      | succ pending =>
        obtain ⟨D, hT, hD⟩ := ih pending
        refine ⟨t :: D, congrArg (t :: ·) hT, ?_⟩
        rw [List.filter_cons_of_neg (by simp [isSignificant, ht])]
        exact hD
    · next ht =>
      split
      · next hb =>
        obtain ⟨D, hT, hD⟩ := ih (pending + 1)
        refine ⟨t :: D, congrArg (t :: ·) hT, ?_⟩
        rw [List.filter_cons_of_neg (by simp [isSignificant, hb])]
        exact hD
      · next hb =>
        obtain ⟨D, hT, hD⟩ := ih 0
        refine ⟨t :: D, congrArg (t :: ·) hT, ?_⟩
        rw [List.filter_cons_of_pos (by simp [isSignificant, ht, hb])]
        exact congrArg (t :: ·) hD

theorem line_subset (S : List Token) : (line S).1 ⊆ S := by
  obtain ⟨D, hD, hline⟩ := lineFrom_eq 0 S
  intro x hx
  rw [hD]
  exact List.mem_append_left _ (List.mem_of_mem_filter (hline ▸ hx))

theorem blockFrom_eq {pending : Nat} {T R E : List Token} {b : Token}
    (h : blockFrom pending T = some (R, b, E)) :
    ∃ D, T = D ++ b :: E ∧ R = D.filter isSignificant ∧ b.isBlock = true := by
  induction T generalizing pending R with
  | nil => simp [blockFrom] at h
  | cons t rest ih =>
    unfold blockFrom at h
    split at h
    · next hblock =>
      cases h
      exact ⟨[], rfl, rfl, hblock⟩
    · split at h
      · next ht =>
        cases pending with
        | zero => cases h
        | succ pending =>
          obtain ⟨D, rfl, rfl, hb⟩ := ih h
          refine ⟨t :: D, rfl, ?_, hb⟩
          rw [List.filter_cons_of_neg (by simp [isSignificant, ht])]
      · next ht =>
        split at h
        · next hs =>
          obtain ⟨D, rfl, rfl, hb⟩ := ih h
          refine ⟨t :: D, rfl, ?_, hb⟩
          rw [List.filter_cons_of_neg (by simp [isSignificant, hs])]
        · next hs =>
          obtain ⟨⟨R', b', E'⟩, hr, heq⟩ := Option.map_eq_some_iff.mp h
          cases heq
          obtain ⟨D, rfl, rfl, hb⟩ := ih hr
          refine ⟨t :: D, rfl, ?_, hb⟩
          rw [List.filter_cons_of_pos (by simp [isSignificant, ht, hs])]

theorem amountFrom_eq {T R E : List Token} (h : amountFrom T = some (R, E)) :
    ∃ times, T = R ++ times :: E ∧ ∀ t ∈ R, t.isBlock = false := by
  induction T generalizing R with
  | nil => simp [amountFrom] at h
  | cons t rest ih =>
    unfold amountFrom at h
    split at h
    · cases h
    · next ht =>
      split at h
      · cases h
        exact ⟨t, rfl, by simp⟩
      · obtain ⟨⟨R', E'⟩, hr, heq⟩ := Option.map_eq_some_iff.mp h
        cases heq
        obtain ⟨times, rfl, hb⟩ := ih hr
        have hblock : t.isBlock = false := by
          simp only [Bool.or_eq_true, not_or, Bool.not_eq_true] at ht
          exact ht.2
        exact ⟨times, rfl, List.forall_mem_cons.mpr ⟨hblock, hb⟩⟩

theorem blockHead_cases {source : String} {keyword : Token} {what : String}
    {make : Origin → List Statement → Statement} {rest : List Token} {h : Head}
    (hh : blockHead source keyword what make rest = .ok h) :
    ∃ block after, rest = block :: after ∧ block.isBlock = true ∧
      h = ⟨block.children, make (originOf source keyword block.stop), after⟩ := by
  cases rest with
  | nil => simp [blockHead] at hh
  | cons block after =>
    simp only [blockHead] at hh
    split at hh
    · next hb =>
      cases hh
      exact ⟨block, after, rfl, hb, rfl⟩
    · cases hh

theorem looseDefine_none {t : Token} (hn : t.isName = false) (source : String) (strict : Bool)
    (rest : List Token) : looseDefine? source strict t rest = none := by
  unfold looseDefine?
  split
  · simp [hn]
  · rfl

theorem looseDefine_cases {source : String} {strict : Bool} {t : Token} {rest : List Token}
    {r : Except Fault Head} (hh : looseDefine? source strict t rest = some r) :
    ∃ arguments equals after, strict = true ∧ t.isName = true ∧ arguments.isParenthesized = true ∧
      equals.isSymbol "=" = true ∧ rest = arguments :: equals :: after ∧
      r = defineHead source strict (fuse t arguments) t arguments equals after := by
  unfold looseDefine? at hh
  split at hh
  · next arguments equals after =>
    split at hh
    · next hc =>
      simp only [Bool.and_eq_true] at hc
      exact ⟨arguments, equals, after, hc.1.1.1, hc.1.1.2, hc.1.2, hc.2, rfl,
        (Option.some.inj hh).symm⟩
    · cases hh
  · cases hh

/-- A definition starts with its call, or with a name and brackets that are not fused yet. -/
theorem define_cases {source : String} {strict : Bool} {t : Token} {rest : List Token}
    {r : Except Fault Head} (hh : define? source strict t rest = some r) :
    (∃ kind value index stop name arguments equals after,
      t = .call kind value index stop name arguments ∧ equals.isSymbol "=" = true ∧
      rest = equals :: after ∧ r = defineHead source strict t name arguments equals after) ∨
    looseDefine? source strict t rest = some r := by
  unfold define? at hh
  split at hh
  · next kind value index stop name arguments equals after =>
    split at hh
    · next he =>
      exact .inl ⟨kind, value, index, stop, name, arguments, equals, after, rfl, he, rfl,
        (Option.some.inj hh).symm⟩
    · exact .inr hh
  · exact .inr hh

theorem looseDefine_of_define_none {source : String} {strict : Bool} {t : Token} {rest : List Token}
    (hh : define? source strict t rest = none) : looseDefine? source strict t rest = none := by
  unfold define? at hh
  split at hh
  · split at hh
    · cases hh
    · exact hh
  · exact hh

theorem define_call_eq (source : String) (strict : Bool) (value : String) (index stop : Int)
    (name arguments equals : Token) (rest : List Token) :
    define? source strict (.call .call value index stop name arguments) (equals :: rest) =
      if equals.isSymbol "=" then
        some (defineHead source strict (.call .call value index stop name arguments) name arguments
          equals rest)
      else none := by
  rw [define?, looseDefine_none rfl]

theorem conditionHead_cases {source : String} {keyword : Token} {what : String}
    {make : Origin → List Token → List Statement → String → Statement} {rest : List Token} {h : Head}
    (hh : conditionHead source keyword what make rest = .ok h) :
    ∃ D block after o s, rest = D ++ block :: after ∧ block.isBlock = true ∧
      h = ⟨block.children, fun body => make o (D.filter isSignificant) body s, after⟩ := by
  unfold conditionHead at hh
  split at hh
  · cases hh
  · next condition block after hb =>
    obtain ⟨D, rfl, rfl, hblock⟩ := blockFrom_eq hb
    split at hh
    · cases hh
    · cases hh
      exact ⟨D, block, after, _, _, rfl, hblock, rfl⟩

theorem timesHead_cases {source : String} {keyword : Token} {rest : List Token} {h : Head}
    (hh : timesHead source keyword rest = .ok h) :
    ∃ amount times after tail make, rest = amount ++ times :: after ∧
      (∀ t ∈ amount, t.isBlock = false) ∧ tail <:+ after ∧
      blockHead source keyword "the repeat loop" make tail = .ok h ∧
      ∀ fit o body, (make o body).Fit fit ↔ fit amount ∧ AllFit fit body := by
  unfold timesHead at hh
  split at hh
  · cases hh
  · next amount after ha =>
    obtain ⟨times, rfl, hb⟩ := amountFrom_eq ha
    split at hh
    · cases hh
    · suffices hmake : ∃ tail make, tail <:+ after ∧
          blockHead source keyword "the repeat loop" make tail = .ok h ∧
          ∀ fit o body, (make o body).Fit fit ↔ fit amount ∧ AllFit fit body by
        obtain ⟨tail, make, htail, hblock, hm⟩ := hmake
        exact ⟨amount, times, after, tail, make, rfl, hb, htail, hblock, hm⟩
      dsimp only at hh
      split at hh
      · next t tail =>
        split at hh
        · cases tail with
          | nil => simp [counterHead] at hh
          | cons counter tail =>
            simp only [counterHead] at hh
            split at hh
            · exact ⟨tail, _, ⟨[t, counter], rfl⟩, hh, fun _ _ _ => Iff.rfl⟩
            · cases hh
        · exact ⟨_, _, List.suffix_refl _, hh, fun _ _ _ => Iff.rfl⟩
      · exact ⟨_, _, List.suffix_refl _, hh, fun _ _ _ => Iff.rfl⟩

/-- A list of tokens from which statements are read. -/
def Reading (F T : List Token) : Prop :=
  ∃ L, Level F L ∧ Excerpt L T

namespace Reading

theorem drop {A : List Token} (h : Reading F (A ++ T)) : Reading F T := by
  obtain ⟨L, hL, he⟩ := h
  exact ⟨L, hL, he.drop⟩

theorem suffix {T' : List Token} (h : Reading F T) (hs : T' <:+ T) : Reading F T' := by
  obtain ⟨A, rfl⟩ := hs
  exact h.drop

theorem nil (h : Reading F T) : Reading F [] :=
  h.suffix List.nil_suffix

theorem inForest (h : Reading F T) {t : Token} (ht : t ∈ T) : InForest F t := by
  obtain ⟨L, hL, he⟩ := h
  exact ⟨L, hL, he.subset ht⟩

theorem children (h : Reading F T) {t : Token} (ht : t ∈ T)
    (hb : t.isBlock = true) : Reading F t.children := by
  obtain ⟨L, hL, hm⟩ := h.inForest ht
  rw [← contents_of_inside hb]
  exact ⟨t.contents, hL.contents hm, .refl _⟩

/-- A token after which a line can stand. -/
def Marks (x : Token) : Prop :=
  x.isSignificant = true ∧ x.isSymbol "," = false

theorem marks_of_word {x : Token} (h : x.kind = .word) : Marks x := by
  refine ⟨significant_of_kind (by simp [h]), ?_⟩
  simp [isSymbol, is, h]

theorem marks_of_equals {x : Token} (h : x.isSymbol "=" = true) : Marks x := by
  simp only [isSymbol, is, Bool.and_eq_true, beq_iff_eq] at h
  simp [Marks, isSignificant, isTerminator, isSymbol, is, h.2]

theorem plain_of_significant (hF : Ordered F) {x : Token} {D E : List Token}
    (h : Reading F (x :: (D ++ E))) (hx : Marks x) : Plain F (D.filter isSignificant) := by
  obtain ⟨L, hL, he⟩ := h
  have hexcerpt : Excerpt L ([] ++ [x] ++ D ++ E) := by simpa using he
  constructor
  · intro t ht
    exact ⟨L, hL, (hexcerpt.significant).subset ht⟩
  · intro first rest hfirst hstarts
    have hself : (D.filter isSignificant).filter (fun t => !t.isNewline) =
        D.filter isSignificant := by
      refine List.filter_eq_self.mpr (fun t ht => ?_)
      simp [not_newline_of_significant (List.mem_filter.mp ht).2]
    rw [hself] at hfirst
    have hrun : Excerpt L (first :: rest) := hfirst ▸ hexcerpt.significant
    exact ⟨L, first, rest, hL, rfl, hstarts, hrun,
      hexcerpt.line_shape (hL.ordered hF) hx.1 hx.2 hfirst⟩

theorem line (hF : Ordered F) {x : Token} (h : Reading F (x :: T)) (hx : Marks x) :
    Plain F (Token.line T).1 := by
  obtain ⟨D, hT, hD⟩ := lineFrom_eq 0 T
  rw [hT] at h
  show Plain F (lineFrom 0 T).1
  rw [hD]
  exact h.plain_of_significant hF hx

theorem amount {E : List Token} {times : Token} (h : Reading F (T ++ times :: E))
    (hb : ∀ t ∈ T, t.isBlock = false) : Plain F T := by
  obtain ⟨L, hL, he⟩ := h
  constructor
  · intro t ht
    exact ⟨L, hL, he.subset (by simp [ht])⟩
  · intro first rest hfirst hstarts
    have hexcerpt : Excerpt L ([] ++ T ++ times :: E) := by simpa using he
    have hrun : Excerpt L (first :: rest) :=
      hfirst ▸ hexcerpt.thin List.filter_sublist (filter_not_newline_filter T)
    have hplain : ∀ t ∈ first :: rest, t.isBlock = false := by
      intro t ht
      rw [← hfirst] at ht
      exact hb t (List.mem_filter.mp ht).1
    exact ⟨L, first, rest, hL, rfl, hstarts, hrun, .plain hplain⟩

end Reading

theorem line_suffix (T : List Token) : (Token.line T).2 <:+ T := by
  obtain ⟨D, hT, _⟩ := lineFrom_eq 0 T
  exact ⟨D, hT.symm⟩

/-- A run of tokens that may be evaluated: tokens of a forest, or what a compound assignment puts
together. -/
inductive Fits (F : List Token) : List Token → Prop where
  | plain {R : List Token} (h : Plain F R) : Fits F R
  | step {name op : Token} {value : String} {index stop : Int} (hname : InForest F name)
      (hn : name.isName = true) (hop : InForest F op) (ho : op.kind = .operator) :
      Fits F [name, op, .leaf .integer value index stop]
  | compound {name op opener closer : Token} {value : String} {index stop : Int}
      {children : List Token} (hname : InForest F name) (hn : name.isName = true)
      (hop : InForest F op) (ho : op.kind = .operator) (hp : opener.value = "(")
      (h : Plain F children) :
      Fits F [name, op, .group .group value index stop children opener closer]

/-- A statement that is read at the head of a list: its runs may be evaluated if those of its block
may, and what is left of the list is its end. -/
structure HeadFits (F T : List Token) (h : Head) : Prop where
  inner : Reading F h.inner
  rest : h.rest <:+ T
  finish : ∀ body, AllFit (Fits F) body → (h.finish body).Fit (Fits F)

theorem startsBlock_of_keyword_none {source : String} {afterCondition : Bool} {t : Token}
    {rest : List Token} (h : keywordHead? source afterCondition t rest = none) :
    Eval.startsBlock t = false := by
  by_contra hs
  obtain ⟨hword, hvalue⟩ := startsBlock_cases (by simpa using hs)
  rcases hvalue with hvalue | hvalue | hvalue <;> simp [keywordHead?, hword, hvalue] at h

section Heads

variable (hF : Ordered F) (hT : Reading F T)

include hT

theorem simple_fits {s : Statement} {rest : List Token} (hs : s.Fit (Fits F))
    (hr : rest <:+ T) : HeadFits F T (.simple s rest) :=
  ⟨hT.nil, hr, fun _ _ => hs⟩

theorem blockHead_fits {source : String} {keyword : Token} {what : String}
    {make : Origin → List Statement → Statement} {rest : List Token} {h : Head} (hr : rest <:+ T)
    (hh : blockHead source keyword what make rest = .ok h)
    (hm : ∀ o body, AllFit (Fits F) body → (make o body).Fit (Fits F)) : HeadFits F T h := by
  obtain ⟨block, after, rfl, hb, rfl⟩ := blockHead_cases hh
  have hmem : block ∈ T := hr.subset List.mem_cons_self
  exact ⟨hT.children hmem hb, (List.suffix_cons block after).trans hr, hm _⟩

include hF

theorem assignHead_fits (source : String) (first name : Token) {equals : Token}
    (fresh constant : Bool) {rest : List Token} (he : equals.isSymbol "=" = true)
    (hr : equals :: rest <:+ T) :
    HeadFits F T (assignHead source first name equals fresh constant rest) := by
  have hline := (hT.suffix hr).line hF (Reading.marks_of_equals he)
  refine simple_fits hT (.plain hline) ?_
  exact ((line_suffix rest).trans (List.suffix_cons _ _)).trans hr

theorem compoundHead_fits (source : String) {name op equals : Token} {rest : List Token}
    (hname : name ∈ T) (hn : name.isName = true) (hop : op ∈ T) (ho : op.kind = .operator)
    (he : equals.isSymbol "=" = true) (hr : equals :: rest <:+ T) :
    HeadFits F T (compoundHead source name op equals rest) := by
  have hline := (hT.suffix hr).line hF (Reading.marks_of_equals he)
  refine simple_fits hT ?_ ?_
  · exact .compound (hT.inForest hname) hn (hT.inForest hop) ho rfl hline
  · exact ((line_suffix rest).trans (List.suffix_cons _ _)).trans hr

theorem compound_fits {source : String} {name : Token} {rest : List Token} {h : Head}
    (hname : name ∈ T) (hn : name.isName = true) (hr : rest <:+ T)
    (hh : compound? source name rest = some h) : HeadFits F T h := by
  match rest with
  | [] => simp [compound?] at hh
  | [_] => simp [compound?] at hh
  | op :: second :: rest =>
    have hop : op ∈ T := hr.subset List.mem_cons_self
    have hsecond : second :: rest <:+ T := (List.suffix_cons op _).trans hr
    simp only [compound?] at hh
    split at hh
    · next ho =>
      split at hh
      · split at hh
        · cases hh
          refine simple_fits hT (.step (hT.inForest hname) hn (hT.inForest hop) ho.1) ?_
          exact (List.suffix_cons second rest).trans hsecond
        · cases hh
      · split at hh
        · next he =>
          cases hh
          exact compoundHead_fits hF hT source hname hn hop ho.1 he hsecond
        · cases hh
    · cases hh

theorem assign_fits {source : String} {t : Token} {rest : List Token} {h : Head}
    (hr : t :: rest <:+ T) (hh : assign? source t rest = some h) : HeadFits F T h := by
  have ht : t ∈ T := hr.subset List.mem_cons_self
  have hrest : rest <:+ T := (List.suffix_cons t rest).trans hr
  unfold assign? at hh
  split at hh
  · next hn =>
    split at hh
    · next head hc =>
      cases hh
      exact compound_fits hF hT ht hn hrest hc
    · split at hh
      · next equals rest =>
        split at hh
        · next he =>
          cases hh
          exact assignHead_fits hF hT source t t false false he hrest
        · cases hh
      · cases hh
  · cases hh

theorem declareHead_fits {source : String} {keyword : Token} {constant : Bool} {rest : List Token}
    {h : Head} (hr : rest <:+ T) (hh : declareHead source keyword constant rest = .ok h) :
    HeadFits F T h := by
  match rest with
  | [] => simp [declareHead] at hh
  | [name] =>
    simp only [declareHead] at hh
    split at hh <;> cases hh
  | name :: equals :: rest =>
    simp only [declareHead] at hh
    split at hh
    · split at hh
      · next he =>
        cases hh
        exact assignHead_fits hF hT source keyword name true constant he
          ((List.suffix_cons name _).trans hr)
      · cases hh
    · cases hh

theorem declare_fits {source : String} {t : Token} {rest : List Token} {h : Head}
    (hr : rest <:+ T) (hh : declare? source t rest = some (.ok h)) : HeadFits F T h := by
  unfold declare? at hh
  split at hh
  · exact declareHead_fits hF hT hr (Option.some.inj hh)
  · split at hh
    · exact declareHead_fits hF hT hr (Option.some.inj hh)
    · cases hh

theorem defineHead_fits {source : String} {strict : Bool} {call name arguments equals : Token}
    {rest : List Token} {h : Head} (he : equals.isSymbol "=" = true) (hr : equals :: rest <:+ T)
    (hh : defineHead source strict call name arguments equals rest = .ok h) :
    HeadFits F T h := by
  have hline := (hT.suffix hr).line hF (Reading.marks_of_equals he)
  unfold defineHead at hh
  cases hp : parameterNames strict (arguments.children.filter (fun t => !t.isTerminator)) with
  | error f =>
    rw [hp] at hh
    cases hh
  | ok parameters =>
    rw [hp] at hh
    cases hh
    refine simple_fits hT (.plain hline) ?_
    exact ((line_suffix rest).trans (List.suffix_cons _ _)).trans hr

theorem define_fits {source : String} {strict : Bool} {t : Token} {rest : List Token} {h : Head}
    (hr : rest <:+ T) (hh : define? source strict t rest = some (.ok h)) : HeadFits F T h := by
  rcases define_cases hh with ⟨_, _, _, _, _, _, _, _, rfl, he, rfl, hd⟩ | hl
  · exact defineHead_fits hF hT he hr hd.symm
  · obtain ⟨arguments, _, _, _, _, _, he, rfl, hd⟩ := looseDefine_cases hl
    exact defineHead_fits hF hT he ((List.suffix_cons arguments _).trans hr) hd.symm

theorem conditionHead_fits {source : String} {keyword x : Token} {what : String}
    {make : Origin → List Token → List Statement → String → Statement} {rest : List Token} {h : Head}
    (hx : x.kind = .word) (hr : x :: rest <:+ T)
    (hh : conditionHead source keyword what make rest = .ok h)
    (hm : ∀ o c body s, Fits F c → AllFit (Fits F) body → (make o c body s).Fit (Fits F)) :
    HeadFits F T h := by
  obtain ⟨D, block, after, o, source', rfl, hblock, rfl⟩ := conditionHead_cases hh
  have hplain := (hT.suffix hr).plain_of_significant hF (Reading.marks_of_word hx)
  have hmem : block ∈ T := hr.subset (by simp)
  have hafter : after <:+ T :=
    ((List.suffix_append (D ++ [block]) after).trans (by simp)).trans hr
  exact ⟨hT.children hmem hblock, hafter, fun body hbody => hm _ _ body _ (.plain hplain) hbody⟩

theorem elseHead_fits {source : String} {afterCondition : Bool} {keyword : Token}
    {rest : List Token} {h : Head} (hr : rest <:+ T)
    (hh : elseHead source afterCondition keyword rest = .ok h) : HeadFits F T h := by
  unfold elseHead at hh
  split at hh
  · split at hh
    · exact blockHead_fits hT List.nil_suffix hh (fun _ _ hbody => hbody)
    · next t after =>
      split at hh
      · next ht =>
        simp only [is, Bool.and_eq_true, beq_iff_eq] at ht
        exact conditionHead_fits hF hT ht.1 hr hh (fun _ _ _ _ hc hbody => ⟨hc, hbody⟩)
      · exact blockHead_fits hT hr hh (fun _ _ hbody => hbody)
  · cases hh

omit hF in
theorem timesHead_fits {source : String} {keyword : Token} {rest : List Token} {h : Head}
    (hr : rest <:+ T) (hh : timesHead source keyword rest = .ok h) : HeadFits F T h := by
  obtain ⟨amount, times, after, tail, make, rfl, hb, htail, hblock, hm⟩ := timesHead_cases hh
  have hplain : Fits F amount := .plain ((hT.suffix hr).amount hb)
  have hafter : after <:+ T :=
    ((List.suffix_append (amount ++ [times]) after).trans (by simp)).trans hr
  exact blockHead_fits hT (htail.trans hafter) hblock
    (fun o body hbody => (hm _ o body).mpr ⟨hplain, hbody⟩)

theorem repeatHead_fits {source : String} {keyword : Token} {rest : List Token} {h : Head}
    (hr : rest <:+ T) (hh : repeatHead source keyword rest = .ok h) : HeadFits F T h := by
  unfold repeatHead at hh
  split at hh
  · next t after =>
    split at hh
    · next ht =>
      simp only [is, Bool.and_eq_true, beq_iff_eq] at ht
      exact conditionHead_fits hF hT ht.1 hr hh (fun _ _ _ _ hc hbody => ⟨hc, hbody⟩)
    · exact timesHead_fits hT hr hh
  · exact timesHead_fits hT hr hh

theorem keywordHead_fits {source : String} {afterCondition : Bool} {t : Token} {rest : List Token}
    {h : Head} (hr : t :: rest <:+ T)
    (hh : keywordHead? source afterCondition t rest = some (.ok h)) : HeadFits F T h := by
  have hrest : rest <:+ T := (List.suffix_cons t rest).trans hr
  have hline : (Token.line rest).2 <:+ T := (line_suffix rest).trans hrest
  unfold keywordHead? at hh
  split at hh
  · next hword =>
    split at hh
    · exact conditionHead_fits hF hT hword hr (Option.some.inj hh)
        (fun _ _ _ _ hc hbody => ⟨hc, hbody⟩)
    · exact elseHead_fits hF hT hrest (Option.some.inj hh)
    · exact repeatHead_fits hF hT hrest (Option.some.inj hh)
    · exact blockHead_fits hT hrest (Option.some.inj hh) (fun _ _ hbody => hbody)
    · cases hh
      have hplain := (hT.suffix hr).line hF (Reading.marks_of_word hword)
      exact simple_fits hT (.plain hplain) hline
    · cases hh
      exact simple_fits hT trivial hrest
    · cases hh
      exact simple_fits hT trivial hline
    · cases hh
      exact simple_fits hT trivial hline
    · cases hh
  · cases hh

omit hF in
theorem inlineHead_fits {source : String} {t : Token} {rest : List Token} {h : Head}
    (hr : t :: rest <:+ T) (ht : t.isTerminator = false) (hs : Eval.startsBlock t = false)
    (hh : inlineHead source t rest = .ok h) : HeadFits F T h := by
  unfold inlineHead at hh
  split at hh
  · cases hh
    obtain ⟨D, hD, hline⟩ := lineFrom_eq 0 rest
    have hplain : Plain F (t :: (Token.line rest).1) := by
      constructor
      · intro u hu
        rcases List.mem_cons.mp hu with rfl | hu
        · exact hT.inForest (hr.subset List.mem_cons_self)
        · have hmem : u ∈ D := (List.mem_filter.mp (hline ▸ hu : u ∈ D.filter isSignificant)).1
          exact hT.inForest (hr.subset (by rw [hD]; simp [hmem]))
      · -- a line that starts with a value starts with no word of a block
        intro first rest' hfirst hstarts
        have hnewline : t.isNewline = false := by
          simp only [isTerminator, Bool.or_eq_false_iff] at ht
          exact ht.1
        rw [List.filter_cons_of_pos (by simp [hnewline])] at hfirst
        cases hfirst
        simp [hs] at hstarts
    refine simple_fits hT (.plain hplain) ?_
    exact ((line_suffix rest).trans (List.suffix_cons t rest)).trans hr
  · cases hh

theorem head_fits {source : String} {strict afterCondition : Bool} {t : Token} {rest : List Token}
    {h : Head} (hr : t :: rest <:+ T) (ht : t.isTerminator = false)
    (hh : head source strict afterCondition t rest = .ok h) : HeadFits F T h := by
  have hrest : rest <:+ T := (List.suffix_cons t rest).trans hr
  unfold head at hh
  cases ha : assign? source t rest with
  | some head =>
    rw [ha] at hh
    cases hh
    exact assign_fits hF hT hr ha
  | none =>
    rw [ha] at hh
    cases hd : declare? source t rest with
    | some head =>
      rw [hd] at hh
      exact declare_fits hF hT hrest (hd.trans (congrArg some hh))
    | none =>
      rw [hd] at hh
      cases hf : define? source strict t rest with
      | some head =>
        rw [hf] at hh
        exact define_fits hF hT hrest (hf.trans (congrArg some hh))
      | none =>
        rw [hf] at hh
        cases hk : keywordHead? source afterCondition t rest with
        | some head =>
          rw [hk] at hh
          exact keywordHead_fits hF hT hr (hk.trans (congrArg some hh))
        | none =>
          rw [hk] at hh
          exact inlineHead_fits hT hr ht (startsBlock_of_keyword_none hk) hh

end Heads

theorem readFrom_fits (hF : Ordered F) {source : String} {strict : Bool} {fuel : Nat}
    {afterCondition : Bool} {T : List Token} {body : List Statement} (hT : Reading F T)
    (hb : readFrom source strict fuel afterCondition T = .ok body) : AllFit (Fits F) body := by
  induction fuel generalizing afterCondition T body with
  | zero =>
    cases hb
    trivial
  | succ fuel ih =>
    cases T with
    | nil =>
      cases hb
      trivial
    | cons t rest =>
      simp only [readFrom] at hb
      split at hb
      · exact ih (hT.suffix (List.suffix_cons t rest)) hb
      · next ht =>
        cases hh : head source strict afterCondition t rest with
        | error f =>
          rw [hh] at hb
          cases hb
        | ok h =>
          have hfits := head_fits hF hT (List.suffix_refl _) (by simpa using ht) hh
          rw [hh] at hb
          cases hi : readFrom source strict fuel false h.inner with
          | error f =>
            simp only [hi, bind, Except.bind] at hb
            cases hb
          | ok inner =>
            have hinner := ih hfits.inner hi
            simp only [hi, bind, Except.bind] at hb
            cases ho : readFrom source strict fuel (h.finish inner).isCondition h.rest with
            | error f =>
              rw [ho] at hb
              cases hb
            | ok others =>
              rw [ho] at hb
              cases hb
              exact ⟨hfits.finish inner hinner, ih (hT.suffix hfits.rest) ho⟩

theorem ofTokens_fits (hF : Ordered F) {source : String} {strict : Bool} {T : List Token}
    {body : List Statement} (hT : Reading F T) (hb : ofTokens source strict T = .ok body) :
    AllFit (Fits F) body :=
  readFrom_fits hF hT hb

theorem block_of_blockHead {source : String} {keyword : Token} {what : String}
    {make : Origin → List Statement → Statement} {rest : List Token} {h : Head}
    (hh : blockHead source keyword what make rest = .ok h) : ∃ b ∈ rest, b.isBlock = true := by
  obtain ⟨block, after, rfl, hb, _⟩ := blockHead_cases hh
  exact ⟨block, List.mem_cons_self, hb⟩

theorem block_of_conditionHead {source : String} {keyword : Token} {what : String}
    {make : Origin → List Token → List Statement → String → Statement} {rest : List Token} {h : Head}
    (hh : conditionHead source keyword what make rest = .ok h) :
    ∃ b ∈ rest, b.isBlock = true := by
  obtain ⟨D, block, after, _, _, rfl, hb, _⟩ := conditionHead_cases hh
  exact ⟨block, by simp, hb⟩

theorem block_of_repeatHead {source : String} {keyword : Token} {rest : List Token} {h : Head}
    (hh : repeatHead source keyword rest = .ok h) : ∃ b ∈ rest, b.isBlock = true := by
  have htimes : timesHead source keyword rest = .ok h → ∃ b ∈ rest, b.isBlock = true := by
    intro ht
    obtain ⟨amount, times, after, tail, _, rfl, _, htail, hblock, _⟩ := timesHead_cases ht
    obtain ⟨b, hb, hbb⟩ := block_of_blockHead hblock
    exact ⟨b, by simp [htail.subset hb], hbb⟩
  unfold repeatHead at hh
  split at hh
  · next t after =>
    split at hh
    · obtain ⟨b, hb, hblock⟩ := block_of_conditionHead hh
      exact ⟨b, List.mem_cons_of_mem _ hb, hblock⟩
    · exact htimes hh
  · exact htimes hh

theorem head_of_startsBlock (source : String) (strict afterCondition : Bool) {t : Token}
    (ht : t.Placed) (hs : Eval.startsBlock t = true) (rest : List Token) :
    some (head source strict afterCondition t rest) =
      keywordHead? source afterCondition t rest := by
  obtain ⟨hword, hvalue⟩ := startsBlock_cases hs
  have hname : t.isName = false := by
    rcases hvalue with hvalue | hvalue | hvalue <;> simp [isName, keywords, hvalue]
  have hassign : assign? source t rest = none := by
    simp only [assign?, hname]
    rfl
  have hdeclare : declare? source t rest = none := by
    rcases hvalue with hvalue | hvalue | hvalue <;> simp [declare?, is, hvalue]
  have hdefine : define? source strict t rest = none := by
    obtain ⟨kind, value, index, stop, rfl⟩ := ht.eq_leaf (by simp [hword]) (by simp [hword])
    exact looseDefine_none hname source strict rest
  have hkeyword : keywordHead? source afterCondition t rest ≠ none := by
    intro hnone
    simp [startsBlock_of_keyword_none hnone] at hs
  obtain ⟨x, hx⟩ := Option.ne_none_iff_exists'.mp hkeyword
  simp [head, hassign, hdeclare, hdefine, hx]

/-- Tokens that start with the word of a block can be read only if there is one. -/
theorem block_of_ofTokens {source : String} {strict : Bool} {first : Token} {rest : List Token}
    {body : List Statement} (hp : first.Placed) (hs : Eval.startsBlock first = true)
    (hb : ofTokens source strict (first :: rest) = .ok body) :
    ∃ b ∈ first :: rest, b.isBlock = true := by
  obtain ⟨hword, hvalue⟩ := startsBlock_cases hs
  have hterminator : first.isTerminator = false := by simp [isTerminator, isSymbol, is, hword]
  have hweight : weightAll (first :: rest) ≠ 0 := by
    cases first <;> simp [weightAll, weight]
  obtain ⟨fuel, hfuel⟩ := Nat.exists_eq_succ_of_ne_zero hweight
  have hhead := head_of_startsBlock source strict false hp hs rest
  unfold ofTokens at hb
  rw [hfuel] at hb
  simp only [readFrom, hterminator] at hb
  suffices hrest : ∃ b ∈ rest, b.isBlock = true by
    obtain ⟨b, hmem, hblock⟩ := hrest
    exact ⟨b, List.mem_cons_of_mem _ hmem, hblock⟩
  cases hh : head source strict false first rest with
  | error f =>
    rw [hh] at hb
    cases hb
  | ok h =>
    rw [hh] at hhead
    rcases hvalue with hvalue | hvalue | hvalue
    · simp only [keywordHead?, hword, hvalue, if_true] at hhead
      exact block_of_conditionHead (Option.some.inj hhead).symm
    · simp only [keywordHead?, hword, hvalue, if_true] at hhead
      exact block_of_repeatHead (Option.some.inj hhead).symm
    · simp only [keywordHead?, hword, hvalue, if_true] at hhead
      exact block_of_blockHead (Option.some.inj hhead).symm

end Abacus
