import Abacus.Proofs.Continued.Heads
import Abacus.Proofs.Rendered.Heads

/-! Statements that evaluate a line. The tokens in front of the line say what is done with its value:
it is assigned, declared, made the body of a function or given back. With another line behind them a
statement is read that does the same, provided that both lines are evaluated alike. -/

namespace Abacus

open Token Statement

/-- Behind `t` the tokens `A` stand in front of a line, and `make` is the statement for it. -/
structure Statement.Leads (source : String) (strict : Bool) (t : Token) (A : List Token)
    (make : List Token → Statement) : Prop where
  head : ∀ after S, head source strict after t (A ++ S) = .ok (.simple (make (line S).1) (line S).2)
  alike : ∀ {R : Rendering} {v v' : List Token}, R.Spoken v v' → R.Says (make v) (make v')

/-- The statement that is read from `t` and the tokens behind it evaluates the rest of a line. -/
def Statement.EvaluatesLine (source : String) (strict : Bool) (t : Token) (T : List Token)
    (s : Statement) (r : List Token) : Prop :=
  ∃ A S make, T = A ++ S ∧ s = make (line S).1 ∧ s.expression = (line S).1 ∧ r = (line S).2 ∧
    Leads source strict t A make

section Cases

variable {source : String} {strict after : Bool} {t : Token} {T r S A : List Token} {s : Statement}

theorem simple_inj {s' : Statement} {r' : List Token} (h : Head.simple s r = .simple s' r') :
    s = s' ∧ r = r' := by
  injection h with _ hs hr
  exact ⟨congrFun hs [], hr⟩

/-- A statement without a block is none with a block. -/
theorem simple_ne {C R : List Token} {f : List Statement → Statement}
    (hf : ∀ body, (f body).body? = some body) : Head.simple s r ≠ ⟨C, f, R⟩ := by
  intro h
  injection h with _ hs _
  have hempty := hf []
  have hone := hf [s]
  rw [← hs] at hempty hone
  cases hempty.symm.trans hone

section Assignments

variable {name op equals : Token}

theorem assignHead_evaluates {fresh constant : Bool} (hname : ∀ x ∈ S, x.index ≠ name.index)
    (hhead : ∀ after S, head source strict after t (A ++ S) =
      .ok (assignHead source t name equals fresh constant S))
    (hs : assignHead source t name equals fresh constant S = .simple s r) :
    EvaluatesLine source strict t (A ++ S) s r := by
  obtain ⟨rfl, rfl⟩ := simple_inj hs
  exact ⟨A, S, fun v => .assign (originOf source t (stopOf v equals.stop)) name v fresh constant
    (sourceOf source v), rfl, rfl, operand_eq fun x hx => hname x (line_subset S hx), rfl,
    hhead, fun hv => .assign rfl hv.runs⟩

/-- The statement for `name op= value`. -/
def Statement.combined (source : String) (name op equals : Token) (value : List Token) : Statement :=
  let inner := sourceOf source value
  let start := (value.head?.map Token.index).getD equals.stop
  let stop := stopOf value equals.stop
  .assign (originOf source name stop) name [name, op, .group .group ("(" ++ inner ++ ")") start stop
    value (.leaf .symbol "(" start start) (.leaf .symbol ")" stop stop)] false false
    (name.value ++ " " ++ op.value ++ " (" ++ inner ++ ")")

theorem compoundHead_evaluates (ht : t.Placed) (ho : op.Placed) (hn : t.isName = true)
    (hk : op.kind = .operator)
    (hhead : ∀ after S, head source strict after t ([op, equals] ++ S) =
      .ok (compoundHead source t op equals S))
    (hs : compoundHead source t op equals S = .simple s r) :
    EvaluatesLine source strict t ([op, equals] ++ S) s r := by
  obtain ⟨rfl, rfl⟩ := simple_inj hs
  refine ⟨[op, equals], S, combined source t op equals, rfl, rfl, if_pos rfl, rfl, hhead,
    fun hv => ?_⟩
  have hword := kind_of_isName hn
  obtain ⟨_, _, _, _, rfl⟩ := ht.eq_leaf (by simp [hword]) (by simp [hword])
  obtain ⟨_, _, _, _, rfl⟩ := ho.eq_leaf (by simp [hk]) (by simp [hk])
  exact .assign rfl (Rendering.runs_operated .leaf hn .leaf hk (.parentheses rfl rfl hv.unbroken)
    (.inl rfl))

theorem compound_evaluates (ho : Ordered (t :: T)) (hn : t.isName = true)
    (hh : compound? source t T = some (.simple s r)) (hne : s.expression ≠ []) :
    EvaluatesLine source strict t T s r := by
  have hplaced := ho.placed
  rcases T with _ | ⟨op, _ | ⟨second, T⟩⟩
  · cases hh
  · cases hh
  · simp only [compound?] at hh
    split at hh
    · next hop =>
      split at hh
      · split at hh
        · -- a step has nothing to evaluate but the number one
          obtain ⟨rfl, _⟩ := simple_inj (Option.some.inj hh)
          exact absurd (if_pos rfl) hne
        · cases hh
      · next hstep =>
        split at hh
        · next hequals =>
          refine compoundHead_evaluates (hplaced t (by simp)) (hplaced op (by simp)) hn hop.1
            (fun after S => ?_) (Option.some.inj hh)
          simp [Statement.head, assign?, hn, compound?, hop, hstep, hequals]
        · cases hh
    · cases hh

theorem assign_evaluates (ho : Ordered (t :: T)) (hh : assign? source t T = some (.simple s r))
    (hne : s.expression ≠ []) : EvaluatesLine source strict t T s r := by
  unfold assign? at hh
  split at hh
  · next hn =>
    split at hh
    · next h' hcompound =>
      cases hh
      exact compound_evaluates ho hn hcompound hne
    · cases T with
      | nil => cases hh
      | cons equals T =>
        dsimp only at hh
        split at hh
        · next hequals =>
          refine assignHead_evaluates (A := [equals]) (fun x hx => ?_) (fun after S => ?_)
            (Option.some.inj hh)
          · have hle : t.stop ≤ x.index := (List.pairwise_cons.mp ho.pairwise).1 x (by simp [hx])
            have hlt := (ho.placed t (by simp)).index_lt_stop
            omega
          · simp [Statement.head, assign?, hn, hequals,
              compound_of_not_operator (not_operator_of_symbol hequals)]
        · cases hh
  · cases hh

theorem declare_evaluates (ho : Ordered T) (hh : declare? source t T = some (.ok (.simple s r))) :
    EvaluatesLine source strict t T s r := by
  obtain ⟨hn, constant, hdeclare⟩ := declare_eq_some hh
  have hfound := Option.some.inj ((hdeclare T).symm.trans hh)
  rcases T with _ | ⟨name, _ | ⟨equals, T⟩⟩
  · cases hfound
  · simp only [declareHead] at hfound
    split at hfound <;> cases hfound
  · simp only [declareHead] at hfound
    split at hfound
    · next hname =>
      split at hfound
      · next hequals =>
        refine assignHead_evaluates (A := [name, equals]) (fun x hx => ?_) (fun after S => ?_)
          (Except.ok.inj hfound)
        · have hle : name.stop ≤ x.index := (List.pairwise_cons.mp ho.pairwise).1 x (by simp [hx])
          have hlt := (ho.placed name (by simp)).index_lt_stop
          omega
        · simp [Statement.head, assign_of_not_name hn, hdeclare, declareHead, hname, hequals]
      · cases hfound
    · cases hfound

end Assignments

section Definitions

variable {call name arguments equals : Token}

theorem defineHead_evaluates
    (hhead : ∀ after S, head source strict after t (A ++ S) =
      defineHead source strict call name arguments equals S)
    (hs : defineHead source strict call name arguments equals S = .ok (.simple s r)) :
    EvaluatesLine source strict t (A ++ S) s r := by
  simp only [defineHead, bind, Except.bind] at hs hhead
  split at hs
  · cases hs
  · next names hnames =>
    simp only [hnames] at hhead
    obtain ⟨rfl, rfl⟩ := simple_inj (Except.ok.inj hs)
    exact ⟨A, S, fun v => .define (originOf source call (stopOf v equals.stop)) name names v
      (sourceOf source v), rfl, rfl, rfl, rfl, hhead, fun hv => .define rfl hv.runs⟩

theorem define_evaluates (ho : Ordered (t :: T)) (ha : assign? source t T = none)
    (hd : declare? source t T = none) (hh : define? source strict t T = some (.ok (.simple s r))) :
    EvaluatesLine source strict t T s r := by
  have hdeclare : ∀ T, declare? source t T = none :=
    fun T => declare_eq_none.mpr (declare_eq_none.mp hd)
  by_cases hc : ∀ kind value index stop n a, t ≠ .call kind value index stop n a
  · rw [Likeness.define_eq hc] at hh
    rcases T with _ | ⟨arguments, _ | ⟨equals, T⟩⟩
    · cases hh
    · cases hh
    · dsimp only at hh
      split at hh
      · next hdefine =>
        have hassign : ∀ S, assign? source t (arguments :: equals :: S) = none := by
          intro S
          have hgroup : arguments.isParenthesized = true := by
            simp only [Bool.and_eq_true] at hdefine
            exact hdefine.1.2
          obtain ⟨inner, hinner⟩ := Option.isSome_iff_exists.mp hgroup
          have hk := ((ho.placed arguments (by simp)).kind_of_inside hinner).1
          simp [assign?, compound?, hk, isSymbol, Token.is]
        refine defineHead_evaluates (A := [arguments, equals]) (fun after S => ?_)
          (Option.some.inj hh)
        simp only [Statement.head, List.cons_append, List.nil_append, hassign, hdeclare,
          Likeness.define_eq hc, hdefine, if_true]
        rfl
      · cases hh
  · simp only [not_forall, not_not] at hc
    obtain ⟨kind, value, index, stop, n, a, rfl⟩ := hc
    cases ho.placed _ List.mem_cons_self
    cases T with
    | nil => cases hh
    | cons equals T =>
      rw [define_call_eq] at hh
      split at hh
      · next hequals =>
        refine defineHead_evaluates (A := [equals]) (fun after S => ?_) (Option.some.inj hh)
        simp only [Statement.head, hdeclare, define_call_eq, List.cons_append, List.nil_append,
          hequals, if_true]
        rfl
      · cases hh

end Definitions

section Keywords

theorem conditionHead_not_simple {what : String}
    {make : Origin → List Token → List Statement → String → Statement}
    (hmake : ∀ o c body x, (make o c body x).body? = some body) :
    conditionHead source t what make T ≠ .ok (.simple s r) := by
  intro hh
  obtain ⟨_, _, _, _, _, _, _, heq⟩ := conditionHead_cases hh
  exact simple_ne (fun body => hmake _ _ body _) heq

theorem blockHead_not_simple {what : String} {make : Origin → List Statement → Statement}
    (hmake : ∀ o body, (make o body).body? = some body) :
    blockHead source t what make T ≠ .ok (.simple s r) := by
  intro hh
  obtain ⟨_, _, _, _, heq⟩ := blockHead_cases hh
  exact simple_ne (hmake _) heq

theorem elseHead_not_simple : elseHead source after t T ≠ .ok (.simple s r) := by
  intro hh
  unfold elseHead at hh
  split at hh
  · split at hh
    · cases hh
    · split at hh
      · exact conditionHead_not_simple (fun _ _ _ _ => rfl) hh
      · exact blockHead_not_simple (fun _ _ => rfl) hh
  · cases hh

theorem timesHead_not_simple : timesHead source t T ≠ .ok (.simple s r) := by
  intro hh
  unfold timesHead at hh
  split at hh
  · cases hh
  · next amount behind hfound =>
    clear hfound
    split at hh
    · cases hh
    · dsimp only at hh
      split at hh
      · next w behind =>
        split at hh
        · cases behind with
          | nil => cases hh
          | cons counter behind =>
            simp only [counterHead] at hh
            split at hh
            · exact blockHead_not_simple (fun _ _ => rfl) hh
            · cases hh
        · exact blockHead_not_simple (fun _ _ => rfl) hh
      · exact blockHead_not_simple (fun _ _ => rfl) hh

theorem repeatHead_not_simple : repeatHead source t T ≠ .ok (.simple s r) := by
  intro hh
  unfold repeatHead at hh
  split at hh
  · split at hh
    · exact conditionHead_not_simple (fun _ _ _ _ => rfl) hh
    · exact timesHead_not_simple hh
  · exact timesHead_not_simple hh

/-- Of the other keywords only `return` has something to evaluate. -/
theorem keyword_evaluates (ht : t.Placed) (hd : declare? source t T = none)
    (hh : keywordHead? source after t T = some (.ok (.simple s r))) (hne : s.expression ≠ []) :
    EvaluatesLine source strict t T s r := by
  unfold keywordHead? at hh
  split at hh
  · next hk =>
    split at hh
    · exact absurd (Option.some.inj hh) (conditionHead_not_simple (fun _ _ _ _ => rfl))
    · exact absurd (Option.some.inj hh) elseHead_not_simple
    · exact absurd (Option.some.inj hh) repeatHead_not_simple
    · exact absurd (Option.some.inj hh) (blockHead_not_simple (fun _ _ => rfl))
    · next hv =>
      obtain ⟨rfl, rfl⟩ := simple_inj (Except.ok.inj (Option.some.inj hh))
      refine ⟨[], T, fun v => .giveBack (originOf source t (stopOf v t.stop)) t v, rfl, rfl, rfl,
        rfl, fun after S => head_of_keyword ht (declare_eq_none.mpr (declare_eq_none.mp hd)) ?_,
        fun hv => .giveBack hv.isEmpty_eq hv.runs⟩
      simp only [keywordHead?, hk, hv, if_true, List.nil_append]
      rfl
    · obtain ⟨rfl, _⟩ := simple_inj (Except.ok.inj (Option.some.inj hh))
      exact absurd rfl hne
    · obtain ⟨rfl, _⟩ := simple_inj (Except.ok.inj (Option.some.inj hh))
      exact absurd rfl hne
    · obtain ⟨rfl, _⟩ := simple_inj (Except.ok.inj (Option.some.inj hh))
      exact absurd rfl hne
    · cases hh
  · cases hh

end Keywords

/-- A statement whose expression is read as a block evaluates the rest of its line. -/
theorem head_evaluates (ho : Ordered (t :: T)) (hh : head source strict after t T = .ok (.simple s r))
    (hb : s.expression.head?.any Eval.startsBlock = true) :
    EvaluatesLine source strict t T s r := by
  have ht := ho.placed t List.mem_cons_self
  have hne : s.expression ≠ [] := by
    intro hnil
    simp [hnil] at hb
  rw [head_eq] at hh
  cases ha : assign? source t T with
  | some h' =>
    obtain rfl : h' = .simple s r := by simpa [special?, ha] using hh
    exact assign_evaluates ho ha hne
  | none =>
  cases hd : declare? source t T with
  | some x =>
    obtain rfl : x = .ok (.simple s r) := by simpa [special?, ha, hd] using hh
    exact declare_evaluates (ho.sublist (List.sublist_cons_self t T)) hd
  | none =>
  cases hf : define? source strict t T with
  | some x =>
    obtain rfl : x = .ok (.simple s r) := by simpa [special?, ha, hd, hf] using hh
    exact define_evaluates ho ha hd hf
  | none =>
  cases hk : keywordHead? source after t T with
  | some x =>
    obtain rfl : x = .ok (.simple s r) := by simpa [special?, ha, hd, hf, hk] using hh
    exact keyword_evaluates ht hd hk hne
  | none =>
    -- an expression alone starts with `t`, and the word of a block would have been read as one
    rw [special_eq_none.mpr ⟨ha, hd, hf, hk⟩] at hh
    simp only [Option.getD_none, inlineHead] at hh
    split at hh
    · obtain ⟨rfl, _⟩ := simple_inj (Except.ok.inj hh)
      have hstarts : Eval.startsBlock t = true := by simpa [expression] using hb
      simp only [Eval.startsBlock, Token.is, Bool.or_eq_true, Bool.and_eq_true, beq_iff_eq] at hstarts
      rcases hstarts with (⟨hw, hv⟩ | ⟨hw, hv⟩) | ⟨hw, hv⟩ <;> simp [keywordHead?, hw, hv] at hk
    · cases hh

end Cases

end Abacus
