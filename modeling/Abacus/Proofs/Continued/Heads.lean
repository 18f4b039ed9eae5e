import Abacus.Proofs.Continued.Lines
import Abacus.Proofs.Continued.Scan
import Abacus.Proofs.Reading.Kinds

/-! From which tokens the head of a statement is read. Its first tokens tell what it is; behind them
it reads a line, a condition with a block, a block, or nothing. So the same head is found in other
lists: where its line goes on behind a backslash, where its block holds other tokens, and where other
statements follow. -/

namespace Abacus

open Token Statement

/-- Behind its first token `t` the head of a statement has tokens `A`, which tell what it is, and
then a line, a condition with a block, a block, or nothing of its own. `Finds` says which heads are
found with `A` in front of other tokens, for a line where `Kept` holds of these. -/
inductive Statement.Head.Form (source : String) (Kept : List Token → Prop)
    (Finds : List Token → Head → Prop) (t : Token) : List Token → Head → Prop where
  | line (A S : List Token) (make : List Token → Statement)
      (hexpr : (make (line S).1).expression = (line S).1 ∨
        A = [] ∧ (make (line S).1).expression = t :: (line S).1 ∨
        (make (line S).1).expression = [])
      (htext : ∀ text, (make (line S).1).text? = some text →
        A = [] ∧ text = sourceOf source (line S).1)
      (hread : ∀ S', Kept (A ++ S') →
        Finds (A ++ S') (.simple (make (line S').1) (line S').2)) :
      Form source Kept Finds t (A ++ S) (.simple (make (line S).1) (line S).2)
  | condition (A : List Token) {S condition R : List Token} {block : Token}
      (make : Int → List Statement → Statement)
      (hfound : blockFrom 0 S = some (condition, block, R))
      (hexpr : ∀ body, (make block.stop body).expression = condition)
      (htext : ∀ body, (make block.stop body).text? = none)
      (hread : ∀ S' block' R', blockFrom 0 S' = some (condition, block', R') →
        Finds (A ++ S') ⟨block'.children, make block'.stop, R'⟩) :
      Form source Kept Finds t (A ++ S) ⟨block.children, make block.stop, R⟩
  | block (A R : List Token) {block : Token} (make : Int → List Statement → Statement)
      (hblock : block.isBlock = true)
      (hexpr : ∀ body, (make block.stop body).expression = [] ∨
        (make block.stop body).kind.isCounted = true)
      (htext : ∀ body, (make block.stop body).text? = none)
      (hread : ∀ block' R', block'.isBlock = true → block'.kind = .group →
        Finds (A ++ block' :: R') ⟨block'.children, make block'.stop, R'⟩) :
      Form source Kept Finds t (A ++ block :: R) ⟨block.children, make block.stop, R⟩
  | short (A R : List Token) (s : Statement) (hexpr : s.expression = []) (htext : s.text? = none)
      (hread : ∀ R', R'.head? = R.head? → Finds (A ++ R') (.simple s R')) :
      Form source Kept Finds t (A ++ R) (.simple s R)

theorem Statement.Head.Form.text {source : String} {Kept : List Token → Prop}
    {Finds : List Token → Head → Prop} {t : Token} {rest : List Token} {h : Head}
    (hf : Form source Kept Finds t rest h) {body : List Statement}
    {text : String} (ht : (h.finish body).text? = some text) :
    text = sourceOf source (Token.line rest).1 ∧ h.rest = (Token.line rest).2 := by
  cases hf with
  | line A S make _ htext _ =>
    obtain ⟨rfl, heq⟩ := htext text ht
    exact ⟨heq, rfl⟩
  | condition A make _ _ htext _ => cases (htext body).symm.trans ht
  | block A R make _ _ htext _ => cases (htext body).symm.trans ht
  | short A R s _ htext _ => cases htext.symm.trans ht

section Forms

variable {source : String} {Kept : List Token → Prop} {Finds : List Token → Head → Prop}
  {t keyword : Token} {A S rest : List Token} {what : String} {h : Head}

theorem not_is_word_of_group {b : Token} (hk : b.kind = .group) (word : String) :
    b.is .word word = false := by
  simp [Token.is, hk]

theorem conditionHead_form {make : Origin → List Token → List Statement → String → Statement}
    (hexpr : ∀ o c body x, (make o c body x).expression = c)
    (htext : ∀ o c body x, (make o c body x).text? = none)
    (hF : ∀ r h', conditionHead source keyword what make r = .ok h' → Finds (A ++ r) h')
    (hh : conditionHead source keyword what make S = .ok h) :
    Head.Form source Kept Finds t (A ++ S) h := by
  unfold conditionHead at hh
  split at hh
  · cases hh
  · next condition block R hfound =>
    split at hh
    · cases hh
    · next hne =>
      cases hh
      refine .condition A (fun stop body => make (originOf source keyword stop) condition body
        (sourceOf source condition)) hfound (fun _ => hexpr _ _ _ _) (fun _ => htext _ _ _ _) ?_
      intro S' block' R' hfound'
      refine hF S' _ ?_
      simp [conditionHead, hfound', hne]

theorem blockHead_form {make : Origin → List Statement → Statement}
    (hexpr : ∀ o body, (make o body).expression = [] ∨ (make o body).kind.isCounted = true)
    (htext : ∀ o body, (make o body).text? = none)
    (hF : ∀ b r h', b.kind = .group → blockHead source keyword what make (b :: r) = .ok h' →
      Finds (A ++ b :: r) h')
    (hh : blockHead source keyword what make S = .ok h) :
    Head.Form source Kept Finds t (A ++ S) h := by
  cases S with
  | nil => cases hh
  | cons block R =>
    simp only [blockHead] at hh
    split at hh
    · next hblock =>
      cases hh
      refine .block A R (fun stop => make (originOf source keyword stop)) hblock
        (fun _ => hexpr _ _) (fun _ => htext _ _) ?_
      intro block' R' hblock' hk
      refine hF block' R' _ hk ?_
      simp [blockHead, hblock']
    · cases hh

theorem elseHead_form {after : Bool}
    (hF : ∀ r h', elseHead source after keyword r = .ok h' → Finds r h')
    (hh : elseHead source after keyword rest = .ok h) : Head.Form source Kept Finds t rest h := by
  have hplain : ∀ {b : Token} {r : List Token} {h' : Head}, after = true →
      b.is .word "if" = false →
      blockHead source keyword "else" (fun o body => .otherwise o keyword body) (b :: r) = .ok h' →
      Finds (b :: r) h' := by
    intro b r h' ha hb hread
    refine hF _ _ ?_
    simpa [elseHead, ha, hb] using hread
  unfold elseHead at hh
  split at hh
  · next ha =>
    split at hh
    · cases hh
    · next x r =>
      split at hh
      · next hx =>
        refine conditionHead_form (A := [x]) (fun _ _ _ _ => rfl) (fun _ _ _ _ => rfl) ?_ hh
        intro r' h' hread
        refine hF _ _ ?_
        simpa [elseHead, ha, hx] using hread
      · exact blockHead_form (A := []) (fun _ _ => .inl rfl) (fun _ _ => rfl)
          (fun b r' h' hk => hplain ha (not_is_word_of_group hk "if")) hh
  · cases hh

theorem timesHead_form
    (hF : ∀ r h', r.head? = rest.head? → timesHead source keyword r = .ok h' → Finds r h')
    (hh : timesHead source keyword rest = .ok h) : Head.Form source Kept Finds t rest h := by
  unfold timesHead at hh
  split at hh
  · cases hh
  · next amount behind hfound =>
    obtain ⟨D, rfl, hD⟩ := amountFrom_replaced hfound
    have hfirst : ∀ R : List Token, (D ++ R).head? = (D ++ behind).head? := by
      cases D with
      | nil => cases hD []
      | cons d D => exact fun _ => rfl
    split at hh
    · cases hh
    · next hne =>
      have hplain : blockHead source keyword "the repeat loop" (fun o body =>
            .repeatTimes o keyword amount body (sourceOf source amount)) behind = .ok h →
          Head.Form source Kept Finds t (D ++ behind) h := by
        refine blockHead_form (fun _ _ => .inr rfl) (fun _ _ => rfl) ?_
        intro b r h' hk hread
        refine hF _ _ (hfirst _) ?_
        simpa [timesHead, hD, hne, not_is_word_of_group hk] using hread
      dsimp only at hh
      split at hh
      · next w behind =>
        split at hh
        · next hw =>
          cases behind with
          | nil => cases hh
          | cons counter behind =>
            simp only [counterHead] at hh
            split at hh
            · next hcounter =>
              have hform : Head.Form source Kept Finds t (D ++ [w, counter] ++ behind) h := by
                refine blockHead_form (fun _ _ => .inr rfl) (fun _ _ => rfl) ?_ hh
                intro b r h' hk hread
                refine hF _ _ (by rw [List.append_assoc, hfirst]) ?_
                simpa [timesHead, hD, hne, hw, counterHead, hcounter] using hread
              simpa using hform
            · cases hh
        · exact hplain hh
      · exact hplain hh

theorem repeatHead_form
    (hF : ∀ r h', repeatHead source keyword r = .ok h' → Finds r h')
    (hh : repeatHead source keyword rest = .ok h) : Head.Form source Kept Finds t rest h := by
  unfold repeatHead at hh
  split at hh
  · next x r =>
    split at hh
    · next hx =>
      refine conditionHead_form (A := [x]) (fun _ _ _ _ => rfl) (fun _ _ _ _ => rfl) ?_ hh
      intro r' h' hread
      refine hF _ _ ?_
      simpa [repeatHead, hx] using hread
    · next hx =>
      refine timesHead_form (fun r' h' hfirst hread => hF _ _ ?_) hh
      obtain ⟨r', rfl⟩ := List.head?_eq_some_iff.mp hfirst
      simpa [repeatHead, hx] using hread
  · cases hh

/-- The value of an assignment does not begin where the name does. -/
theorem operand_eq {name : Token} {value : List Token} (h : ∀ x ∈ value, x.index ≠ name.index) :
    operand name value = value := by
  unfold operand
  split
  · exact if_neg (h _ List.mem_cons_self)
  · rfl

theorem assignHead_form {first name equals : Token} {fresh constant : Bool}
    (hname : ∀ x ∈ S, x.index ≠ name.index)
    (hF : ∀ r, Finds (A ++ r) (assignHead source first name equals fresh constant r)) :
    Head.Form source Kept Finds t (A ++ S) (assignHead source first name equals fresh constant S) :=
  .line A S (fun value => .assign (originOf source first (stopOf value equals.stop)) name value
    fresh constant (sourceOf source value))
    (.inl (operand_eq fun x hx => hname x (line_subset S hx))) (by rintro _ ⟨⟩) (fun r _ => hF r)

theorem stepHead_form {op second : Token}
    (hF : ∀ r, r.head? = rest.head? → Finds (A ++ r) (stepHead source t op second r)) :
    Head.Form source Kept Finds t (A ++ rest) (stepHead source t op second rest) :=
  .short A rest _ (if_pos rfl) rfl hF

theorem compoundHead_form {op equals : Token}
    (hF : ∀ r, Finds (A ++ r) (compoundHead source t op equals r)) :
    Head.Form source Kept Finds t (A ++ S) (compoundHead source t op equals S) :=
  .line A S (fun value =>
    let inner := sourceOf source value
    let start := (value.head?.map Token.index).getD equals.stop
    let stop := stopOf value equals.stop
    .assign (originOf source t stop) t [t, op, .group .group ("(" ++ inner ++ ")") start stop value
      (.leaf .symbol "(" start start) (.leaf .symbol ")" stop stop)] false false
      (t.value ++ " " ++ op.value ++ " (" ++ inner ++ ")"))
    (.inl (if_pos rfl)) (by rintro _ ⟨⟩) (fun r _ => hF r)

theorem compound_form (hh : compound? source t rest = some h)
    (hF : ∀ r h', compound? source t r = some h' → Finds r h') :
    Head.Form source Kept Finds t rest h := by
  rcases rest with _ | ⟨op, _ | ⟨second, rest⟩⟩
  · cases hh
  · cases hh
  · simp only [compound?] at hh
    split at hh
    · next hop =>
      split at hh
      · next hstep =>
        split at hh
        · next hend =>
          cases hh
          refine stepHead_form (A := [op, second]) (fun r hr => hF _ _ ?_)
          simp [compound?, hop, hstep, hr, hend]
        · cases hh
      · next hstep =>
        split at hh
        · next hequals =>
          cases hh
          refine compoundHead_form (A := [op, second]) (fun r => hF _ _ ?_)
          simp [compound?, hop, hstep, hequals]
        · cases hh
    · cases hh

theorem compound_of_not_operator {op : Token} (hk : op.kind ≠ .operator) (r : List Token) :
    compound? source t (op :: r) = none := by
  cases r <;> simp [compound?, hk]

theorem not_operator_of_symbol {x : Token} {value : String} (hx : x.isSymbol value = true) :
    x.kind ≠ .operator := by
  simp only [isSymbol, Token.is, Bool.and_eq_true, beq_iff_eq] at hx
  simp [hx.1]

theorem assign_form (hh : assign? source t rest = some h)
    (hname : ∀ x ∈ rest, x.index ≠ t.index)
    (hF : ∀ r h', assign? source t r = some h' → Finds r h') :
    Head.Form source Kept Finds t rest h := by
  unfold assign? at hh
  split at hh
  · next hn =>
    split at hh
    · next h' hcompound =>
      cases hh
      exact compound_form hcompound (fun r h' hr => hF r h' (by simp [assign?, hn, hr]))
    · cases rest with
      | nil => cases hh
      | cons equals rest =>
        dsimp only at hh
        split at hh
        · next hequals =>
          cases hh
          refine assignHead_form (A := [equals])
            (fun x hx => hname x (List.mem_cons_of_mem _ hx)) (fun r => hF _ _ ?_)
          simp [assign?, hn, hequals, compound_of_not_operator (not_operator_of_symbol hequals)]
        · cases hh
  · cases hh

theorem declareHead_form {constant : Bool}
    (hh : declareHead source keyword constant rest = .ok h)
    (hrest : rest.Pairwise (fun x y => y.index ≠ x.index))
    (hF : ∀ r h', declareHead source keyword constant r = .ok h' → Finds r h') :
    Head.Form source Kept Finds t rest h := by
  rcases rest with _ | ⟨name, _ | ⟨equals, rest⟩⟩
  · cases hh
  · simp only [declareHead] at hh
    split at hh <;> cases hh
  · simp only [declareHead] at hh
    split at hh
    · next hname =>
      split at hh
      · next hequals =>
        cases hh
        have hbehind := (List.pairwise_cons.mp hrest).1
        refine assignHead_form (A := [name, equals])
          (fun x hx => hbehind x (List.mem_cons_of_mem _ hx)) (fun r => hF _ _ ?_)
        simp [declareHead, hname, hequals]
      · cases hh
    · cases hh

theorem defineHead_form {strict : Bool} {call name arguments equals : Token}
    (hh : defineHead source strict call name arguments equals S = .ok h)
    (hF : ∀ r h', defineHead source strict call name arguments equals r = .ok h' →
      Finds (A ++ r) h') :
    Head.Form source Kept Finds t (A ++ S) h := by
  simp only [defineHead, bind, Except.bind] at hh
  split at hh
  · cases hh
  · next parameters hparameters =>
    cases hh
    refine .line A S (fun value => .define (originOf source call (stopOf value equals.stop)) name
      parameters value (sourceOf source value)) (.inl rfl) (by rintro _ ⟨⟩) (fun r _ => hF _ _ ?_)
    simp only [defineHead, bind, Except.bind, hparameters]
    rfl

theorem assign_of_not_name (hn : t.isName = false) (r : List Token) :
    assign? source t r = none := by
  simp [assign?, hn]

theorem define_form {strict : Bool} (ht : t.Placed) (hrest : ∀ x ∈ rest, x.Placed)
    (hh : define? source strict t rest = some (.ok h))
    (hF : ∀ r h', assign? source t r = none → define? source strict t r = some (.ok h') →
      Finds r h') :
    Head.Form source Kept Finds t rest h := by
  by_cases hc : ∀ kind value index stop n a, t ≠ .call kind value index stop n a
  · rw [Likeness.define_eq hc] at hh
    rcases rest with _ | ⟨arguments, _ | ⟨equals, rest⟩⟩
    · cases hh
    · cases hh
    · dsimp only at hh
      split at hh
      · next hdefine =>
        have hgroup : arguments.isParenthesized = true := by
          simp only [Bool.and_eq_true] at hdefine
          exact hdefine.1.2
        obtain ⟨inner, hinner⟩ := Option.isSome_iff_exists.mp hgroup
        have hk := ((hrest arguments List.mem_cons_self).kind_of_inside hinner).1
        have hcompound : ∀ r, compound? source t (arguments :: r) = none :=
          compound_of_not_operator (by simp [hk])
        refine defineHead_form (A := [arguments, equals]) (Option.some.inj hh)
          (fun r h' hread => hF _ _ ?_ ?_)
        · simp [assign?, hcompound, isSymbol, Token.is, hk]
        · rw [Likeness.define_eq hc]
          simp only [List.cons_append, List.nil_append, hdefine, hread, if_true]
      · cases hh
  · simp only [not_forall, not_not] at hc
    obtain ⟨kind, value, index, stop, n, a, rfl⟩ := hc
    cases ht
    cases rest with
    | nil => cases hh
    | cons equals rest =>
      rw [define_call_eq] at hh
      split at hh
      · next hequals =>
        refine defineHead_form (A := [equals]) (Option.some.inj hh)
          (fun r h' hread => hF _ _ (assign_of_not_name rfl _) ?_)
        rw [List.singleton_append, define_call_eq, if_pos hequals, hread]
      · cases hh

theorem define_kind {strict : Bool} (hh : define? source strict t rest = some (.ok h))
    (body : List Statement) : (h.finish body).kind = .define := by
  rcases define_cases hh with ⟨_, _, _, _, _, _, _, _, _, _, _, hd⟩ | hl
  · exact defineHead_kind hd.symm body
  · obtain ⟨_, _, _, _, _, _, _, _, hd⟩ := looseDefine_cases hl
    exact defineHead_kind hd.symm body

theorem keyword_form {after : Bool} (hh : keywordHead? source after t rest = some (.ok h))
    (hF : ∀ r h', keywordHead? source after t r = some (.ok h') → Finds r h') :
    Head.Form source Kept Finds t rest h := by
  unfold keywordHead? at hh
  split at hh
  · next hk =>
    split at hh
    · next hv =>
      refine conditionHead_form (A := []) (fun _ _ _ _ => rfl) (fun _ _ _ _ => rfl)
        (fun r h' hread => hF _ _ ?_) (Option.some.inj hh)
      simp [keywordHead?, hk, hv, hread]
    · next hv =>
      refine elseHead_form (fun r h' hread => hF _ _ ?_) (Option.some.inj hh)
      simp [keywordHead?, hk, hv, hread]
    · next hv =>
      refine repeatHead_form (fun r h' hread => hF _ _ ?_) (Option.some.inj hh)
      simp [keywordHead?, hk, hv, hread]
    · next hv =>
      refine blockHead_form (A := []) (fun _ _ => .inl rfl) (fun _ _ => rfl)
        (fun b r h' _ hread => hF _ _ ?_) (Option.some.inj hh)
      simp [keywordHead?, hk, hv, hread]
    · next hv =>
      cases hh
      refine .line [] rest (fun value => .giveBack (originOf source t (stopOf value t.stop)) t value)
        (.inl rfl) (by rintro _ ⟨⟩) (fun r _ => hF _ _ ?_)
      simp [keywordHead?, hk, hv, returnHead]
    · next hv =>
      cases hh
      refine .short [] rest _ rfl rfl (fun r _ => hF _ _ ?_)
      simp [keywordHead?, hk, hv]
    · next hv =>
      cases hh
      refine .line [] rest (fun value => .print (originOf source t (stopOf value t.stop)) t
        (sourceOf source value)) (.inr (.inr rfl)) (fun text htext => ⟨rfl, ?_⟩)
        (fun r _ => hF _ _ ?_)
      · exact (Option.some.inj htext).symm
      · simp [keywordHead?, hk, hv, textHead]
    · next hv =>
      cases hh
      refine .line [] rest (fun value => .throw (originOf source t (stopOf value t.stop)) t
        (sourceOf source value)) (.inr (.inr rfl)) (fun text htext => ⟨rfl, ?_⟩)
        (fun r _ => hF _ _ ?_)
      · exact (Option.some.inj htext).symm
      · simp [keywordHead?, hk, hv, textHead]
    · cases hh
  · cases hh

end Forms

section Special

variable {source : String} {strict after : Bool} {t : Token} {rest : List Token} {h : Head}

/-- The statement that starts here, unless it is an expression to evaluate. -/
def Statement.special? (source : String) (strict after : Bool) (t : Token) (rest : List Token) :
    Option (Except Fault Head) :=
  ((assign? source t rest).map Except.ok) <|> declare? source t rest <|>
    define? source strict t rest <|> keywordHead? source after t rest

theorem head_eq (source : String) (strict after : Bool) (t : Token) (rest : List Token) :
    head source strict after t rest =
      (special? source strict after t rest).getD (inlineHead source t rest) := rfl

theorem special_eq_none : special? source strict after t rest = none ↔
    assign? source t rest = none ∧ declare? source t rest = none ∧
      define? source strict t rest = none ∧ keywordHead? source after t rest = none := by
  simp [special?]

theorem declare_eq_none : declare? source t rest = none ↔
    t.is .word "let" = false ∧ t.is .word "const" = false := by
  unfold declare?
  split
  · next hlet => simp [hlet]
  · next hlet =>
    split
    · next hconst => simp [hconst]
    · next hconst => simp [hlet, hconst]

theorem declare_eq_some {x : Except Fault Head} (hd : declare? source t rest = some x) :
    t.isName = false ∧
      ∃ constant, ∀ r, declare? source t r = some (declareHead source t constant r) := by
  unfold declare? at hd
  split at hd
  · next hlet =>
    refine ⟨?_, false, fun r => if_pos hlet⟩
    by_contra hn
    have hother : t.is .word "let" = false :=
      Likeness.not_is_keyword (by simpa using hn) (by decide)
    simp [hother] at hlet
  · next hlet =>
    split at hd
    · next hconst =>
      refine ⟨?_, true, fun r => by simp [declare?, hlet, hconst]⟩
      by_contra hn
      have hother : t.is .word "const" = false :=
        Likeness.not_is_keyword (by simpa using hn) (by decide)
      simp [hother] at hconst
    · cases hd

theorem define_of_word (ht : t.Placed) (hk : t.kind = .word) (hn : t.isName = false)
    (r : List Token) : define? source strict t r = none := by
  obtain ⟨kind, value, index, stop, rfl⟩ := ht.eq_leaf (by simp [hk]) (by simp [hk])
  rw [Likeness.define_eq (by simp)]
  rcases r with _ | ⟨arguments, _ | ⟨equals, r⟩⟩
  · rfl
  · rfl
  · simp [hn]

theorem keyword_of_word (hh : keywordHead? source after t rest ≠ none) :
    t.kind = .word ∧ t.isName = false := by
  unfold keywordHead? at hh
  split at hh
  · next hk =>
    refine ⟨hk, ?_⟩
    simp only [isName, Bool.and_eq_false_iff, Bool.not_eq_false', List.contains_iff_mem]
    right
    split at hh
    case h_9 => exact absurd rfl hh
    all_goals
      next hv =>
        rw [hv]
        decide
  · exact absurd rfl hh

/-- A statement that assigns nothing, defines nothing and is no expression to evaluate is read from a
keyword. -/
theorem keyword_of_head (hh : head source strict after t rest = .ok h) (body : List Statement)
    (ha : (h.finish body).kind ≠ .assign) (hd : (h.finish body).kind ≠ .define)
    (hi : (h.finish body).kind ≠ .inline) :
    declare? source t rest = none ∧ keywordHead? source after t rest = some (.ok h) := by
  rw [head_eq] at hh
  cases hassign : assign? source t rest with
  | some h' =>
    obtain rfl : h' = h := by simpa [special?, hassign] using hh
    exact absurd (assign_kind hassign body) ha
  | none =>
  cases hdeclare : declare? source t rest with
  | some x =>
    obtain rfl : x = .ok h := by simpa [special?, hassign, hdeclare] using hh
    exact absurd (declare_kind hdeclare body) ha
  | none =>
  cases hdefine : define? source strict t rest with
  | some x =>
    obtain rfl : x = .ok h := by simpa [special?, hassign, hdeclare, hdefine] using hh
    exact absurd (define_kind hdefine body) hd
  | none =>
  cases hkeyword : keywordHead? source after t rest with
  | some x =>
    obtain rfl : x = .ok h := by simpa [special?, hassign, hdeclare, hdefine, hkeyword] using hh
    exact ⟨rfl, rfl⟩
  | none =>
    rw [special_eq_none.mpr ⟨hassign, hdeclare, hdefine, hkeyword⟩] at hh
    exact absurd (inlineHead_kind hh body) hi

/-- What a keyword starts is what is read from it. -/
theorem head_of_keyword (ht : t.Placed) (hd : declare? source t rest = none)
    {x : Except Fault Head} (hk : keywordHead? source after t rest = some x) :
    head source strict after t rest = x := by
  obtain ⟨hword, hn⟩ := keyword_of_word (hk ▸ Option.some_ne_none x)
  simp [head_eq, special?, assign_of_not_name hn, hd, define_of_word ht hword hn, hk]

/-- The head of a statement is read in one of these ways. Where it is an expression to evaluate, it
must stay one in the other lists. -/
theorem head_form (Kept : List Token → Prop) (ho : Ordered (t :: rest))
    (hkept : special? source strict after t rest = none →
      ∀ r, Kept r → special? source strict after t r = none)
    (hh : head source strict after t rest = .ok h) :
    Head.Form source Kept (fun r h' => head source strict after t r = .ok h') t rest h := by
  have ht := ho.placed t List.mem_cons_self
  have hrest : ∀ x ∈ rest, x.Placed := fun x hx => ho.placed x (List.mem_cons_of_mem _ hx)
  obtain ⟨hbehind, hpairwise⟩ := List.pairwise_cons.mp ho.pairwise
  cases ha : assign? source t rest with
  | some h' =>
    obtain rfl : h' = h := by
      rw [head_eq] at hh
      simpa [special?, ha] using hh
    refine assign_form ha (fun x hx => ?_) (fun r h' hr => ?_)
    · have hle : t.stop ≤ x.index := hbehind x hx
      have hlt := ht.index_lt_stop
      omega
    · simp [head_eq, special?, hr]
  | none =>
  cases hd : declare? source t rest with
  | some x =>
    obtain rfl : x = .ok h := by
      rw [head_eq] at hh
      simpa [special?, ha, hd] using hh
    obtain ⟨hn, constant, hdeclare⟩ := declare_eq_some hd
    refine declareHead_form (Option.some.inj ((hdeclare rest).symm.trans hd)) ?_
      (fun r h' hr => ?_)
    · refine hpairwise.imp_of_mem (fun {x y} hx _ hxy => ?_)
      have hle : x.stop ≤ y.index := hxy
      have hlt := (hrest x hx).index_lt_stop
      omega
    · simp [head_eq, special?, assign_of_not_name hn, hdeclare, hr]
  | none =>
  cases hf : define? source strict t rest with
  | some x =>
    obtain rfl : x = .ok h := by
      rw [head_eq] at hh
      simpa [special?, ha, hd, hf] using hh
    refine define_form ht hrest hf (fun r h' hra hr => ?_)
    have hrd : declare? source t r = none := declare_eq_none.mpr (declare_eq_none.mp hd)
    simp [head_eq, special?, hra, hrd, hr]
  | none =>
  cases hk : keywordHead? source after t rest with
  | some x =>
    obtain rfl : x = .ok h := by
      rw [head_eq] at hh
      simpa [special?, ha, hd, hf, hk] using hh
    exact keyword_form hk (fun r h' hr =>
      head_of_keyword ht (declare_eq_none.mpr (declare_eq_none.mp hd)) hr)
  | none =>
    have hnone := special_eq_none.mpr ⟨ha, hd, hf, hk⟩
    rw [head_eq, hnone] at hh
    simp only [Option.getD_none, inlineHead] at hh
    split at hh
    · next hvalue =>
      cases hh
      refine .line [] rest (fun value => .inline (originOf source t (stopOf value t.stop))
        (t :: value)) (.inr (.inl ⟨rfl, rfl⟩)) (by rintro _ ⟨⟩) (fun r hr => ?_)
      rw [head_eq, hkept hnone _ hr]
      simp [inlineHead, hvalue]
    · cases hh

/-- The text that a statement shows is that of the rest of its line. -/
theorem head_text (hh : head source strict after t rest = .ok h) {body : List Statement}
    {text : String} (htext : (h.finish body).text? = some text) :
    text = sourceOf source (line rest).1 ∧ h.rest = (line rest).2 := by
  have hkind : (h.finish body).kind = .print ∨ (h.finish body).kind = .throw := by
    generalize h.finish body = s at htext ⊢
    cases s with
    | print => exact .inl rfl
    | throw => exact .inr rfl
    | _ => cases htext
  obtain ⟨_, hk⟩ := keyword_of_head hh body (fun ha => by simp [ha] at hkind)
    (fun hd => by simp [hd] at hkind) (fun hi => by simp [hi] at hkind)
  have hform : Head.Form source (fun _ => True) (fun _ _ => True) t rest h :=
    keyword_form hk (fun _ _ _ => trivial)
  exact hform.text htext

/-- The tokens that a loop evaluates to count its turns are those in front of the word `times`. -/
theorem timesHead_amount (hh : timesHead source t rest = .ok h) (body : List Statement) :
    ∃ R, amountFrom rest = some ((h.finish body).expression, R) := by
  unfold timesHead at hh
  split at hh
  · cases hh
  · next amount behind hfound =>
    have hplain : ∀ {r : List Token}, blockHead source t "the repeat loop" (fun o body =>
        .repeatTimes o t amount body (sourceOf source amount)) r = .ok h →
        (h.finish body).expression = amount := by
      intro r hread
      obtain ⟨_, _, _, _, rfl⟩ := blockHead_cases hread
      rfl
    refine ⟨behind, hfound.trans (congrArg (fun E => some (E, behind)) (Eq.symm ?_))⟩
    split at hh
    · cases hh
    · dsimp only at hh
      split at hh
      · next w behind =>
        split at hh
        · cases behind with
          | nil => cases hh
          | cons counter behind =>
            simp only [counterHead] at hh
            split at hh
            · obtain ⟨_, _, _, _, rfl⟩ := blockHead_cases hh
              rfl
            · cases hh
        · exact hplain hh
      · exact hplain hh

theorem keyword_counted (hh : keywordHead? source after t rest = some (.ok h))
    {body : List Statement} (hk : (h.finish body).kind.isCounted = true) :
    (∃ R, amountFrom rest = some ((h.finish body).expression, R)) ∧
      ∀ r, r.head? = rest.head? → keywordHead? source after t r = some (timesHead source t r) := by
  unfold keywordHead? at hh
  split at hh
  · next hword =>
    split at hh
    · obtain ⟨_, _, _, _, _, _, _, rfl⟩ := conditionHead_cases (Option.some.inj hh)
      cases hk
    · simp only [Option.some.injEq, elseHead] at hh
      split at hh
      · split at hh
        · cases hh
        · split at hh
          · obtain ⟨_, _, _, _, _, _, _, rfl⟩ := conditionHead_cases hh
            cases hk
          · obtain ⟨_, _, _, _, rfl⟩ := blockHead_cases hh
            cases hk
      · cases hh
    · next hv =>
      replace hh := Option.some.inj hh
      cases rest with
      | nil => cases hh
      | cons u rest =>
        simp only [repeatHead] at hh
        split at hh
        · obtain ⟨_, _, _, _, _, _, _, rfl⟩ := conditionHead_cases hh
          cases hk
        · next hu =>
          refine ⟨timesHead_amount hh body, fun r hr => ?_⟩
          obtain ⟨r, rfl⟩ := List.head?_eq_some_iff.mp hr
          simp [keywordHead?, hword, hv, repeatHead, hu]
    · obtain ⟨_, _, _, _, rfl⟩ := blockHead_cases (Option.some.inj hh)
      cases hk
    all_goals cases hh
    all_goals cases hk
  · cases hh

/-- A loop that counts is read from its keyword, its amount first. -/
theorem head_counted (ht : t.Placed) (hh : head source strict after t rest = .ok h)
    {body : List Statement} (hk : (h.finish body).kind.isCounted = true) :
    (∃ R, amountFrom rest = some ((h.finish body).expression, R)) ∧
      ∀ r, r.head? = rest.head? → head source strict after t r = timesHead source t r := by
  obtain ⟨hd, hkeyword⟩ := keyword_of_head hh body (fun ha => by simp [ha, Kind.isCounted] at hk)
    (fun hd => by simp [hd, Kind.isCounted] at hk) (fun hi => by simp [hi, Kind.isCounted] at hk)
  obtain ⟨hamount, hfirst⟩ := keyword_counted hkeyword hk
  exact ⟨hamount, fun r hr =>
    head_of_keyword ht (declare_eq_none.mpr (declare_eq_none.mp hd)) (hfirst r hr)⟩

end Special

section Kept

variable {source : String} {strict after : Bool} {t z : Token} {U V W : List Token}

theorem kind_of_not_significant (hz : z.isSignificant = false) :
    z.kind = .symbol ∧ z.isSymbol "=" = false := by
  have hk : z.kind = .symbol := by
    by_contra hk
    simp [significant_of_kind hk] at hz
  refine ⟨hk, ?_⟩
  by_contra he
  have hv : z.value = "=" := by simpa [isSymbol, Token.is, hk] using he
  simp [isSignificant, isTerminator, isSymbol, Token.is, hv] at hz

theorem compound_kept (hz : z.isSignificant = false)
    (hend : z.isTerminator = true → V.head?.all isTerminator = true)
    (h : compound? source t (U ++ V) = none) : compound? source t (U ++ z :: W) = none := by
  obtain ⟨hk, he⟩ := kind_of_not_significant hz
  rcases U with _ | ⟨op, _ | ⟨second, U⟩⟩
  · exact compound_of_not_operator (by simp [hk]) W
  · simp [compound?, hk, he]
  · have hall : (U ++ z :: W).head?.all isTerminator = true →
        (U ++ V).head?.all isTerminator = true := by
      cases U with
      | nil => simpa using hend
      | cons u U => exact id
    simp only [List.cons_append, compound?] at h ⊢
    split
    · next hop =>
      rw [if_pos hop] at h
      split
      · next hstep =>
        rw [if_pos hstep] at h
        split
        · next hh => cases h.symm.trans (if_pos (hall hh))
        · rfl
      · next hstep =>
        rw [if_neg hstep] at h
        split
        · next hequals => simp [hequals] at h
        · rfl
    · rfl

theorem looseDefine_kept (hz : z.isSignificant = false) (hp : z.isParenthesized = false)
    (h : looseDefine? source strict t (U ++ V) = none) :
    looseDefine? source strict t (U ++ z :: W) = none := by
  obtain ⟨_, he⟩ := kind_of_not_significant hz
  rcases U with _ | ⟨arguments, _ | ⟨equals, U⟩⟩
  · cases W <;> simp [looseDefine?, hp]
  · simp [looseDefine?, he]
  · simpa [looseDefine?] using h

theorem define_kept (hz : z.isSignificant = false) (hp : z.isParenthesized = false)
    (h : define? source strict t (U ++ V) = none) :
    define? source strict t (U ++ z :: W) = none := by
  obtain ⟨_, he⟩ := kind_of_not_significant hz
  have hloose := looseDefine_kept (W := W) hz hp (looseDefine_of_define_none h)
  cases t with
  | call =>
    cases U with
    | nil => simpa [define?, he] using hloose
    | cons equals U =>
      simp only [List.cons_append, define?] at h hloose ⊢
      split at h
      · cases h
      · next hequals => rwa [if_neg hequals]
  | leaf | group => exact hloose

theorem keyword_kept (h : keywordHead? source after t U = none) :
    keywordHead? source after t W = none := by
  unfold keywordHead? at h ⊢
  split
  · next hk =>
    rw [if_pos hk] at h
    split at h
    case h_9 => rfl
    all_goals cases h
  · rfl

/-- An expression to evaluate stays one where other tokens come behind a backslash or the end of
its line. -/
theorem special_kept (hz : z.isSignificant = false) (hp : z.isParenthesized = false)
    (hend : z.isTerminator = true → V.head?.all isTerminator = true)
    (h : special? source strict after t (U ++ V) = none) :
    special? source strict after t (U ++ z :: W) = none := by
  obtain ⟨ha, hd, hf, hk⟩ := special_eq_none.mp h
  refine special_eq_none.mpr ⟨?_, declare_eq_none.mpr (declare_eq_none.mp hd),
    define_kept hz hp hf, keyword_kept hk⟩
  unfold assign? at ha ⊢
  split
  · next hn =>
    rw [if_pos hn] at ha
    cases hc : compound? source t (U ++ V) with
    | some h' => simp [hc] at ha
    | none =>
      rw [hc] at ha
      rw [compound_kept hz hend hc]
      cases U with
      | nil => simp [(kind_of_not_significant hz).2]
      | cons equals U => simpa using ha
  · rfl

end Kept

end Abacus
