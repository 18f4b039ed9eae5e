import Abacus.Proofs.Forest.Statement
import Mathlib.Data.List.Induction

/-! What one statement takes from a token list. It takes at least its first token and nothing behind
what is left; its text runs from its first token to the last one that is no end of a line and no
backslash. If it cannot be read, some token of the list is to blame. -/

namespace Abacus

open Token Statement

/-- The tokens that a statement evaluates or blames, without those of its block. -/
def Statement.parts : Statement → List Token
  | .assign _ name value _ _ _ => name :: value
  | .define _ name _ value _ => name :: value
  | .inline _ value => value
  | .ifThen _ keyword condition _ _ => keyword :: condition
  | .elseIf _ keyword condition _ _ => keyword :: condition
  | .otherwise _ keyword _ => [keyword]
  | .loop _ keyword _ => [keyword]
  | .repeatUntil _ keyword condition _ _ => keyword :: condition
  | .repeatTimes _ keyword amount _ _ => keyword :: amount
  | .repeatWith _ keyword amount counter _ _ => keyword :: counter :: amount
  | .giveBack _ keyword value => keyword :: value
  | .leave _ keyword => [keyword]
  | .print _ keyword _ => [keyword]
  | .throw _ keyword _ => [keyword]

theorem Statement.runs_subset_parts (s : Statement) : ∀ R ∈ s.runs, R ⊆ s.parts := by
  cases s <;> simp [Statement.runs, Statement.parts]

/-- One of the tokens `used`, or what an assignment or a definition makes of them. -/
inductive Token.From (used : List Token) : Token → Prop where
  | taken {t : Token} (h : t ∈ used) : From used t
  | called {kind : Kind} {value : String} {index stop : Int} {name arguments : Token}
      (h : .call kind value index stop name arguments ∈ used) : From used name
  | one {t : Token} (h : t ∈ used) : From used (.leaf .integer "1" t.index t.stop)
  | bracket {value : String} {start stop : Int} {run : List Token}
      (hstart : ∃ t ∈ used, start = t.index ∨ start = t.stop) (hstop : ∃ t ∈ used, stop = t.stop)
      (hrun : run ⊆ used) :
      From used (.group .group value start stop run (.leaf .symbol "(" start start)
        (.leaf .symbol ")" stop stop))

/-- Some token, at any depth, is to blame as a whole. -/
def Fault.At (T : List Token) (f : Fault) : Prop :=
  ∃ t, InForest T t ∧ f.offset = t.index ∧ f.length = t.length

/-- The tokens `used` make up a statement, and its block is the last of them. -/
structure Statement.Head.Takes (source : String) (used : List Token) (h : Head) : Prop where
  span : ∃ first kept last trailing, used.head? = some first ∧ used = kept ++ last :: trailing ∧
    (∀ t ∈ trailing, t.isSignificant = false) ∧
    ∀ body, (h.finish body).origin = originOf source first last.stop
  parts : ∀ body, ∀ t ∈ (h.finish body).parts, From used t
  block : h.inner = [] ∧ (∀ body, (h.finish body).body? = none) ∨
    ∃ kept block, used = kept ++ [block] ∧ kept ≠ [] ∧ block.isBlock = true ∧
      h.inner = block.children ∧
      ∀ body, (h.finish body).body? = some body ∧ (h.finish body).origin.stop = block.stop

/-- The head of a list takes some of its tokens and leaves the rest, or one of them is to blame. -/
def Statement.Head.Answers (source : String) (T : List Token) : Except Fault Head → Prop
  | .ok h => ∃ used, T = used ++ h.rest ∧ h.Takes source used
  | .error f => f.At T

theorem Token.fault_at {T : List Token} {t : Token} (h : t ∈ T) (message : String) :
    (t.fault message).At T :=
  ⟨t, ⟨T, .here T, h⟩, rfl, rfl⟩

/-- The stop of a line is that of its last significant token, or of the token before it. -/
theorem stopOf_significant (x : Token) (D : List Token) :
    ∃ kept last trailing, x :: D = kept ++ last :: trailing ∧
      (∀ t ∈ trailing, t.isSignificant = false) ∧
      stopOf (D.filter isSignificant) x.stop = last.stop := by
  induction D using List.reverseRecOn with
  | nil => exact ⟨[], x, [], rfl, by simp, rfl⟩
  | append_singleton D d ih =>
    by_cases hd : d.isSignificant = true
    · refine ⟨x :: D, d, [], by simp, by simp, ?_⟩
      simp [List.filter_append, hd, stopOf]
    · obtain ⟨kept, last, trailing, heq, htrailing, hstop⟩ := ih
      refine ⟨kept, last, trailing ++ [d], ?_, ?_, ?_⟩
      · rw [← List.cons_append, heq]
        simp
      · intro t ht
        rcases List.mem_append.mp ht with ht | ht
        · exact htrailing t ht
        · simpa [List.mem_singleton.mp ht] using hd
      · simpa [List.filter_append, hd] using hstop

section Heads

variable {source : String} {P : List Token} {rest : List Token}

/-- A statement whose last part is a line. -/
theorem simple_answers {s : Statement} {x first : Token} (hfirst : (P ++ [x]).head? = some first)
    (ho : s.origin = originOf source first (stopOf (line rest).1 x.stop)) (hb : s.body? = none)
    (hp : ∀ used, P ++ [x] ++ (line rest).1 ⊆ used → ∀ t ∈ s.parts, From used t) :
    Head.Answers source (P ++ x :: rest) (.ok (.simple s (line rest).2)) := by
  obtain ⟨D, hD, hline⟩ := lineFrom_eq 0 rest
  obtain ⟨kept, last, trailing, heq, htrailing, hstop⟩ := stopOf_significant x D
  have hvalue : (line rest).1 = D.filter isSignificant := hline
  have hused : P ++ [x] ++ (line rest).1 ⊆ P ++ x :: D := by
    rw [hvalue]
    intro t ht
    simp only [List.mem_append, List.mem_filter, List.mem_cons] at ht ⊢
    tauto
  refine ⟨P ++ x :: D, ?_, ⟨first, P ++ kept, last, trailing, ?_, ?_, htrailing, ?_⟩, ?_, ?_⟩
  · rw [List.append_assoc, List.cons_append]
    exact congrArg (fun l => P ++ x :: l) hD
  · cases P with
    | nil => exact hfirst
    | cons p P => exact hfirst
  · rw [heq, List.append_assoc]
  · intro body
    rw [← hstop, ← hvalue]
    exact ho
  · exact fun _ => hp _ hused
  · exact .inl ⟨rfl, fun _ => hb⟩

theorem blockHead_answers {keyword : Token} {what : String}
    {make : Origin → List Statement → Statement} (hk : P.head? = some keyword)
    (ho : ∀ o body, (make o body).origin = o) (hb : ∀ o body, (make o body).body? = some body)
    (hp : ∀ o body, ∀ t ∈ (make o body).parts, t ∈ P) :
    Head.Answers source (P ++ rest) (blockHead source keyword what make rest) := by
  have hmem : keyword ∈ P ++ rest := List.mem_append_left _ (List.mem_of_mem_head? hk)
  cases rest with
  | nil => exact fault_at hmem _
  | cons block after =>
    simp only [blockHead]
    split
    · next hblock =>
      have hne : P ≠ [] := by
        rintro rfl
        cases hk
      refine ⟨P ++ [block], by simp, ⟨keyword, P, block, [], ?_, rfl, by simp, ?_⟩, ?_, ?_⟩
      · rw [List.head?_append, hk]
        rfl
      · exact fun body => ho _ body
      · exact fun body t ht => .taken (List.mem_append_left _ (hp _ body t ht))
      · refine .inr ⟨P, block, rfl, hne, hblock, rfl, fun body => ⟨hb _ body, ?_⟩⟩
        exact congrArg Origin.stop (ho _ body)
    · exact fault_at hmem _

theorem conditionHead_answers {keyword : Token} {what : String}
    {make : Origin → List Token → List Statement → String → Statement}
    (hk : P.head? = some keyword) (ho : ∀ o c body s, (make o c body s).origin = o)
    (hb : ∀ o c body s, (make o c body s).body? = some body)
    (hp : ∀ o c body s, (make o c body s).parts = keyword :: c) :
    Head.Answers source (P ++ rest) (conditionHead source keyword what make rest) := by
  have hmem : keyword ∈ P ++ rest := List.mem_append_left _ (List.mem_of_mem_head? hk)
  unfold conditionHead
  split
  · exact fault_at hmem _
  · next condition block after hfound =>
    obtain ⟨D, rfl, rfl, hblock⟩ := blockFrom_eq hfound
    split
    · exact fault_at hmem _
    · refine ⟨P ++ D ++ [block], by simp, ⟨keyword, P ++ D, block, [], ?_, rfl, by simp, ?_⟩, ?_, ?_⟩
      · rw [List.append_assoc, List.head?_append, hk]
        rfl
      · exact fun body => ho _ _ body _
      · intro body t ht
        rw [hp] at ht
        refine .taken ?_
        rcases List.mem_cons.mp ht with rfl | ht
        · simp [List.mem_of_mem_head? hk]
        · simp [(List.mem_filter.mp ht).1]
      · refine .inr ⟨P ++ D, block, rfl, ?_, hblock, rfl, fun body => ⟨hb _ _ body _, ?_⟩⟩
        · intro hnil
          rw [(List.append_eq_nil_iff.mp hnil).1] at hk
          cases hk
        · exact congrArg Origin.stop (ho _ _ body _)

theorem elseHead_answers {afterCondition : Bool} {keyword : Token} :
    Head.Answers source (keyword :: rest) (elseHead source afterCondition keyword rest) := by
  have hplain : Head.Answers source ([keyword] ++ rest)
      (blockHead source keyword "else" (fun o body => .otherwise o keyword body) rest) :=
    blockHead_answers rfl (fun _ _ => rfl) (fun _ _ => rfl) (fun _ _ t ht => ht)
  unfold elseHead
  split
  · split
    · exact hplain
    · next t after =>
      split
      · exact conditionHead_answers (P := [keyword, t]) rfl (fun _ _ _ _ => rfl)
          (fun _ _ _ _ => rfl) (fun _ _ _ _ => rfl)
      · exact hplain
  · exact fault_at List.mem_cons_self _

theorem timesHead_answers {keyword : Token} :
    Head.Answers source (keyword :: rest) (timesHead source keyword rest) := by
  have hkeyword := fault_at (List.mem_cons_self (a := keyword) (l := rest))
  unfold timesHead
  split
  · exact hkeyword _
  · next amount after hfound =>
    obtain ⟨times, rfl, _⟩ := amountFrom_eq hfound
    split
    · exact hkeyword _
    · have hplain : Head.Answers source (keyword :: (amount ++ [times]) ++ after)
          (blockHead source keyword "the repeat loop" (fun o body =>
            .repeatTimes o keyword amount body (sourceOf source amount)) after) := by
        refine blockHead_answers rfl (fun _ _ => rfl) (fun _ _ => rfl) ?_
        intro o body t ht
        rcases List.mem_cons.mp ht with rfl | ht
        · exact List.mem_cons_self
        · simp [ht]
      have hshape : ∀ T, keyword :: (amount ++ [times]) ++ T = keyword :: (amount ++ times :: T) := by
        simp
      rw [hshape] at hplain
      dsimp only
      split
      · next t tail =>
        split
        · cases tail with
          | nil => exact fault_at (by simp) _
          | cons counter tail =>
            simp only [counterHead]
            split
            · have hcounter : Head.Answers source (keyword :: (amount ++ [times, t, counter]) ++ tail)
                  (blockHead source keyword "the repeat loop" (fun o body =>
                    .repeatWith o keyword amount counter body (sourceOf source amount)) tail) := by
                refine blockHead_answers rfl (fun _ _ => rfl) (fun _ _ => rfl) ?_
                intro o body u hu
                simp only [Statement.parts, List.mem_cons] at hu
                rcases hu with rfl | rfl | hu
                · exact List.mem_cons_self
                · simp
                · simp [hu]
              simpa using hcounter
            · exact fault_at (by simp) _
        · exact hplain
      · exact hplain

theorem repeatHead_answers {keyword : Token} :
    Head.Answers source (keyword :: rest) (repeatHead source keyword rest) := by
  unfold repeatHead
  split
  · next t after =>
    split
    · exact conditionHead_answers (P := [keyword, t]) rfl (fun _ _ _ _ => rfl)
        (fun _ _ _ _ => rfl) (fun _ _ _ _ => rfl)
    · exact timesHead_answers
  · exact timesHead_answers

theorem assignHead_answers {first name equals : Token} {fresh constant : Bool}
    (hfirst : (P ++ [equals]).head? = some first) (hname : name ∈ P) :
    Head.Answers source (P ++ equals :: rest)
      (.ok (assignHead source first name equals fresh constant rest)) := by
  refine simple_answers hfirst rfl rfl (fun used hused t ht => .taken (hused ?_))
  rcases List.mem_cons.mp ht with rfl | ht
  · simp [hname]
  · exact List.mem_append_right _ ht

theorem start_from {used value : List Token} {x : Token} (hv : value ⊆ used) (hx : x ∈ used) :
    ∃ t ∈ used, (value.head?.map Token.index).getD x.stop = t.index ∨
      (value.head?.map Token.index).getD x.stop = t.stop := by
  cases value with
  | nil => exact ⟨x, hx, .inr rfl⟩
  | cons t value => exact ⟨t, hv List.mem_cons_self, .inl rfl⟩

theorem stopOf_from {used value : List Token} {x : Token} (hv : value ⊆ used) (hx : x ∈ used) :
    ∃ t ∈ used, stopOf value x.stop = t.stop := by
  cases hl : value.getLast? with
  | none => exact ⟨x, hx, by simp [stopOf, hl]⟩
  | some t => exact ⟨t, hv (List.mem_of_mem_getLast? hl), by simp [stopOf, hl]⟩

theorem compoundHead_answers {name op equals : Token} :
    Head.Answers source ([name, op] ++ equals :: rest)
      (.ok (compoundHead source name op equals rest)) := by
  refine simple_answers rfl rfl rfl (fun used hused t ht => ?_)
  have hequals : equals ∈ used := hused (by simp)
  simp only [Statement.parts, List.mem_cons, List.not_mem_nil, or_false] at ht
  rcases ht with rfl | rfl | rfl | rfl
  · exact .taken (hused (by simp))
  · exact .taken (hused (by simp))
  · exact .taken (hused (by simp))
  · -- the bracket around the value starts and stops where the value does
    have hline : (line rest).1 ⊆ used := fun u hu => hused (List.mem_append_right _ hu)
    exact .bracket (start_from hline hequals) (stopOf_from hline hequals) hline

theorem stepHead_answers {name op second : Token} :
    Head.Answers source ([name, op, second] ++ rest)
      (.ok (stepHead source name op second rest)) := by
  refine ⟨[name, op, second], rfl, ⟨name, [name, op], second, [], rfl, rfl, by simp, ?_⟩, ?_, ?_⟩
  · exact fun _ => rfl
  · intro _ t ht
    simp only [stepHead, Head.simple, Statement.parts, List.mem_cons, List.not_mem_nil,
      or_false] at ht
    rcases ht with rfl | rfl | rfl | rfl
    · exact .taken (by simp)
    · exact .taken (by simp)
    · exact .taken (by simp)
    · exact .one (by simp)
  · exact .inl ⟨rfl, fun _ => rfl⟩

theorem assign_answers {t : Token} {h : Head} (hh : assign? source t rest = some h) :
    Head.Answers source (t :: rest) (.ok h) := by
  have hcompound : compound? source t rest = some h → Head.Answers source (t :: rest) (.ok h) := by
    intro hc
    match rest with
    | [] | [_] => simp [compound?] at hc
    | op :: second :: rest =>
      simp only [compound?] at hc
      split at hc
      · split at hc
        · split at hc
          · cases hc
            exact stepHead_answers
          · cases hc
        · split at hc
          · cases hc
            exact compoundHead_answers
          · cases hc
      · cases hc
  unfold assign? at hh
  split at hh
  · split at hh
    · next head hc =>
      cases hh
      exact hcompound hc
    · split at hh
      · next equals rest =>
        split at hh
        · cases hh
          exact assignHead_answers (P := [t]) rfl List.mem_cons_self
        · cases hh
      · cases hh
  · cases hh

theorem declareHead_answers {keyword : Token} {constant : Bool} :
    Head.Answers source (keyword :: rest) (declareHead source keyword constant rest) := by
  match rest with
  | [] => exact fault_at List.mem_cons_self _
  | [name] =>
    simp only [declareHead]
    split <;> exact fault_at (by simp) _
  | name :: equals :: rest =>
    simp only [declareHead]
    split
    · split
      · exact assignHead_answers (P := [keyword, name]) rfl (by simp)
      · exact fault_at (by simp) _
    · exact fault_at (by simp) _

theorem declare_answers {t : Token} {r : Except Fault Head}
    (hh : declare? source t rest = some r) : Head.Answers source (t :: rest) r := by
  unfold declare? at hh
  split at hh
  · cases hh
    exact declareHead_answers
  · split at hh
    · cases hh
      exact declareHead_answers
    · cases hh

theorem parameterName_error {strict : Bool} {t : Token} {f : Fault}
    (h : parameterName strict t = .error f) : ∃ message, f = t.fault message := by
  unfold parameterName at h
  split at h
  · split at h
    · cases h
      exact ⟨_, rfl⟩
    · cases h
  · cases h
    exact ⟨_, rfl⟩

theorem parameterNames_error {strict : Bool} {f : Fault} : ∀ {tokens : List Token},
    parameterNames strict tokens = .error f → ∃ t ∈ tokens, ∃ message, f = t.fault message
  | [], h => nomatch h
  | [t], h => by
    cases hn : parameterName strict t with
    | error f' =>
      simp only [parameterNames, hn, bind, Except.bind] at h
      cases h
      exact ⟨t, by simp, parameterName_error hn⟩
    | ok name => simp [parameterNames, hn, bind, Except.bind, pure, Except.pure] at h
  | t :: comma :: rest, h => by
    cases hn : parameterName strict t with
    | error f' =>
      simp only [parameterNames, hn, bind, Except.bind] at h
      cases h
      exact ⟨t, by simp, parameterName_error hn⟩
    | ok name =>
      simp only [parameterNames, hn, bind, Except.bind] at h
      split at h
      · split at h
        · cases h
          exact ⟨comma, by simp, _, rfl⟩
        · split at h
          · next f' hr =>
            cases h
            obtain ⟨u, hu, message⟩ := parameterNames_error hr
            exact ⟨u, List.mem_cons_of_mem _ (List.mem_cons_of_mem _ hu), message⟩
          · cases h
      · cases h
        exact ⟨comma, by simp, _, rfl⟩

theorem defineHead_answers {strict : Bool} {call name arguments equals first : Token}
    (hfirst : (P ++ [equals]).head? = some first) (hi : call.index = first.index)
    (hname : ∀ used, P ⊆ used → From used name)
    (hargs : ∀ c ∈ arguments.children, InForest (P ++ equals :: rest) c) :
    Head.Answers source (P ++ equals :: rest)
      (defineHead source strict call name arguments equals rest) := by
  cases hp : parameterNames strict (arguments.children.filter (fun t => !t.isTerminator)) with
  | error f =>
    simp only [defineHead, hp, bind, Except.bind]
    obtain ⟨t, ht, message, rfl⟩ := parameterNames_error hp
    exact ⟨t, hargs t (List.mem_filter.mp ht).1, rfl, rfl⟩
  | ok parameters =>
    simp only [defineHead, hp, bind, Except.bind]
    refine simple_answers hfirst ?_ rfl (fun used hused t ht => ?_)
    · show originOf source call _ = originOf source first _
      simp only [originOf, hi]
    · rcases List.mem_cons.mp ht with rfl | ht
      · exact hname used (fun u hu => hused (by simp [hu]))
      · exact .taken (hused (List.mem_append_right _ ht))

theorem define_answers {strict : Bool} {t : Token} {r : Except Fault Head}
    (hh : define? source strict t rest = some r) : Head.Answers source (t :: rest) r := by
  rcases define_cases hh with ⟨kind, value, index, stop, name, arguments, _, _, rfl, _, rfl, rfl⟩ | hl
  · refine defineHead_answers (P := [_]) rfl rfl (fun used hs => .called (hs List.mem_cons_self)) ?_
    exact fun c hc => ⟨_, .into (t := .call kind value index stop name arguments) (by simp)
      (.here _), hc⟩
  · obtain ⟨arguments, _, _, _, _, hgroup, _, rfl, rfl⟩ := looseDefine_cases hl
    refine defineHead_answers (P := [t, arguments]) rfl rfl
      (fun used hs => .taken (hs (by simp))) ?_
    intro c hm
    rw [← contents_of_inside hgroup] at hm
    exact ⟨_, .into (t := arguments) (by simp) (.here _), hm⟩

theorem line_answers {keyword : Token} {s : Statement}
    (ho : s.origin = originOf source keyword (stopOf (line rest).1 keyword.stop))
    (hb : s.body? = none) (hp : s.parts ⊆ keyword :: (line rest).1) :
    Head.Answers source (keyword :: rest) (.ok (.simple s (line rest).2)) :=
  simple_answers (P := []) rfl ho hb (fun _ hused _ ht => .taken (hused (hp ht)))

theorem keywordHead_answers {afterCondition : Bool} {t : Token} {r : Except Fault Head}
    (hh : keywordHead? source afterCondition t rest = some r) :
    Head.Answers source (t :: rest) r := by
  unfold keywordHead? at hh
  split at hh
  · split at hh
    · cases hh
      exact conditionHead_answers (P := [t]) rfl (fun _ _ _ _ => rfl) (fun _ _ _ _ => rfl)
        (fun _ _ _ _ => rfl)
    · cases hh
      exact elseHead_answers
    · cases hh
      exact repeatHead_answers
    · cases hh
      exact blockHead_answers (P := [t]) rfl (fun _ _ => rfl) (fun _ _ => rfl)
        (fun _ _ _ hu => hu)
    · cases hh
      exact line_answers rfl rfl (List.Subset.refl _)
    · cases hh
      refine ⟨[t], rfl, ⟨t, [], t, [], rfl, rfl, by simp, fun _ => rfl⟩, ?_, ?_⟩
      · exact fun _ u hu => .taken hu
      · exact .inl ⟨rfl, fun _ => rfl⟩
    · cases hh
      exact line_answers rfl rfl (by simp [Statement.parts])
    · cases hh
      exact line_answers rfl rfl (by simp [Statement.parts])
    · cases hh
  · cases hh

/-- What the head of a list takes, and what is to blame if there is none. -/
theorem head_answers (source : String) (strict afterCondition : Bool) (t : Token)
    (rest : List Token) :
    Head.Answers source (t :: rest) (head source strict afterCondition t rest) := by
  unfold head
  cases ha : assign? source t rest with
  | some h => exact assign_answers ha
  | none =>
    cases hd : declare? source t rest with
    | some r => exact declare_answers hd
    | none =>
      cases hf : define? source strict t rest with
      | some r => exact define_answers hf
      | none =>
        cases hk : keywordHead? source afterCondition t rest with
        | some r => exact keywordHead_answers hk
        | none =>
          show Head.Answers source (t :: rest) (inlineHead source t rest)
          unfold inlineHead
          split
          · exact line_answers rfl rfl (List.Subset.refl _)
          · exact fault_at List.mem_cons_self _

theorem head_takes {strict afterCondition : Bool} {t : Token} {h : Head}
    (hh : head source strict afterCondition t rest = .ok h) :
    ∃ used, t :: rest = used ++ h.rest ∧ h.Takes source used := by
  have hanswer := head_answers source strict afterCondition t rest
  rw [hh] at hanswer
  exact hanswer

theorem head_fault {strict afterCondition : Bool} {t : Token} {f : Fault}
    (hh : head source strict afterCondition t rest = .error f) : f.At (t :: rest) := by
  have hanswer := head_answers source strict afterCondition t rest
  rw [hh] at hanswer
  exact hanswer

end Heads

end Abacus
