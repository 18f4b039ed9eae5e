import Abacus.Proofs.Simulation.Steps

/-! Expressions of the two runs, given that the expressions and blocks inside them are simulated. -/

namespace Abacus.Simulation

open Eval

variable {α β : Type} {a : Setup α} {b : Setup β}

/-- The parts of a script are evaluated alike. -/
structure PartsRelated (S : Simulation a b) (p : Parts α) (q : Parts β) : Prop where
  expression : ∀ calls scope tokens offset, S.fit tokens →
    S.Simulates (Rel.value S) (p.expression calls scope tokens offset)
      (q.expression calls scope tokens offset)
  block : ∀ calls scope body top report, Statement.AllFit S.fit body →
    S.Simulates (Rel.flow S) (p.block calls scope body top report)
      (q.block calls scope body top report)

variable {S : Simulation a b} {p : Parts α} {q : Parts β}

theorem blockValue_related {x : Flow α} {y : Flow β} (h : Flow.Related S.same x y) :
    S.same (blockValue a.system.zero x) (blockValue b.system.zero y) := by
  cases h with
  | nothing => exact S.zero
  | finished h => exact h
  | returned h => exact h
  | left => exact S.zero

theorem simulates_innerBlock (hp : PartsRelated S p q) (calls : Nat) (scope : Scope) {key : Int × Int}
    {tokens : List Token} (h : S.keyed key tokens) :
    S.Simulates (Rel.value S) (Eval.innerBlock a p calls scope key tokens)
      (Eval.innerBlock b q calls scope key tokens) := by
  refine (S.block h).bind ?_
  rintro body _ ⟨rfl, hbody⟩
  refine (S.child scope).bind ?_
  rintro inner _ rfl
  refine (hp.block calls inner body false false hbody).bind ?_
  intro x y hx
  exact .pure (blockValue_related hx)

theorem simulates_variableValue (scope : Scope) (t : Token) :
    S.Simulates (Rel.value S) (Eval.variableValue scope t) (Eval.variableValue scope t) := by
  refine (S.lookup scope t.value).bind ?_
  intro x y hx
  cases hx with
  | none => exact .failAt _ _
  | some hb =>
    cases hb with
    | number h constant => exact .pure h
    | builtin h => exact .failAt _ _
    | function h => exact .failAt _ _

theorem simulates_numberArgument (hp : PartsRelated S p q) (calls : Nat) (scope : Scope)
    {tokens : List Token} (h : S.fit tokens) (first : Int) :
    S.Simulates (Rel.binding S)
      (do return .number (← p.expression calls scope tokens first) false)
      (do return .number (← q.expression calls scope tokens first) false) := by
  refine (hp.expression calls scope tokens first h).bind ?_
  intro v w hv
  exact .pure (.number hv false)

theorem simulates_argument (hp : PartsRelated S p q) (calls : Nat) (scope : Scope)
    {tokens : List Token} (h : S.fit tokens) :
    S.Simulates (Rel.binding S) (Eval.argument p calls scope tokens)
      (Eval.argument q calls scope tokens) := by
  rcases tokens with _ | ⟨t, _ | ⟨u, rest⟩⟩
  · exact simulates_numberArgument hp calls scope h _
  · unfold Eval.argument
    dsimp only
    split
    · refine (S.lookup scope t.value).bind ?_
      intro x y hx
      cases hx with
      | none => exact simulates_numberArgument hp calls scope h _
      | some hb =>
        cases hb with
        | number hv constant => exact simulates_numberArgument hp calls scope h _
        | builtin hk => exact .pure (.builtin hk)
        | function hf => exact .pure (.function hf)
    · exact simulates_numberArgument hp calls scope h _
  · exact simulates_numberArgument hp calls scope h _

theorem simulates_arguments (hp : PartsRelated S p q) (calls : Nat) (scope : Scope)
    (runs : List (List Token)) (h : ∀ run ∈ runs, S.fit run) :
    S.Simulates (Rel.binding S).list (Eval.arguments p calls scope runs)
      (Eval.arguments q calls scope runs) := by
  induction runs with
  | nil => exact .pure .nil
  | cons run runs ih =>
    refine (simulates_argument hp calls scope (h run (by simp))).bind ?_
    intro x y hx
    refine (ih (fun run hr => h run (by simp [hr]))).bind ?_
    intro xs ys hxs
    exact .pure (.cons hx hxs)

theorem numbers_related {xs : List (Binding α)} {ys : List (Binding β)}
    (h : List.Forall₂ (Binding.Related S.same S.known S.fit) xs ys) :
    Option.Rel (List.Forall₂ S.same) (numbers? xs) (numbers? ys) := by
  induction h with
  | nil => exact .some .nil
  | cons hx _ ih =>
    cases hx with
    | number hv constant =>
      simp only [numbers?]
      generalize numbers? _ = x at ih ⊢
      generalize numbers? _ = y at ih ⊢
      cases ih with
      | none => exact .none
      | some hh => exact .some (.cons hv hh)
    | builtin hk => exact .none
    | function hf => exact .none

theorem length_numbers {xs : List (Binding α)} {vs : List α} (h : numbers? xs = some vs) :
    vs.length = xs.length := by
  fun_induction numbers? xs generalizing vs with
  | case1 =>
    cases h
    rfl
  | case2 v constant rest ih =>
    obtain ⟨ws, hw, rfl⟩ := Option.map_eq_some_iff.mp h
    simp only [List.length_cons, ih hw]
  | case3 => cases h

theorem applyBuiltin_eq (t : Token) (x : Builtin α) (args : List α) (m : Machine α) :
    Eval.applyBuiltin t x args m =
      match x.run args m.resources with
      | .ok v r => .ok v { m with resources := r }
      | .error .inputRequired r => .error (.input m.statement) { m with resources := r }
      | .error f r =>
        .error (.fault (t.fault (Text.capitalized f.message))) { m with resources := r } := by
  unfold Eval.applyBuiltin
  rw [Run.bind_eq, Run.builtin_eq]
  cases x.run args m.resources with
  | ok v r => rfl
  | error f r => cases f <;> rfl

theorem applyBuiltin_of_error (t : Token) {x : Builtin α} {args : List α} {m : Machine α}
    {f : Failure} {r : Resources α} (h : x.run args m.resources = .error f r)
    (hf : f ≠ .inputRequired) :
    Eval.applyBuiltin t x args m =
      .error (.fault (t.fault (Text.capitalized f.message))) { m with resources := r } := by
  rw [applyBuiltin_eq, h]
  cases f with
  | inputRequired => exact absurd rfl hf
  | _ => rfl

theorem simulates_applyBuiltin (t : Token) {x : Builtin α} {y : Builtin β} {vs : List α}
    {ws : List β} (h : ∀ r u, S.resources r u →
      Draws S.lessInput S.same S.fails S.resources (x.run vs r) (y.run ws u) ∨
        Declined S.refuses (x.run vs r) (y.run ws u)) :
    S.Simulates (Rel.value S) (Eval.applyBuiltin t x vs) (Eval.applyBuiltin t y ws) where
  ends m n hm := by
    have hd := h m.resources n.resources hm.resources
    generalize hx : x.run vs m.resources = r at hd
    generalize hy : y.run ws n.resources = u at hd
    rcases hd with hd | @⟨g, hrefuses, hg, r, u⟩
    · rw [applyBuiltin_eq, applyBuiltin_eq, hx, hy]
      cases hd with
      | ok hv hr => exact .ok hv { hm with resources := hr }
      | @error f g _ _ hf hr =>
        by_cases hi : f = .inputRequired
        · have hg := (S.inputRequired f g hf).mp hi
          subst hi hg
          have hs : S.Stops (.input m.statement) (.input n.statement) :=
            hm.statement ▸ .input hf _
          exact .error hs { hm with resources := hr }
        · have hg : g ≠ .inputRequired := fun hg => hi ((S.inputRequired f g hf).mpr hg)
          simp only [S.message f g hf]
          exact .error (.fault _) { hm with resources := hr }
      | lacking hl =>
        refine .ahead (.inr (.inr ⟨hl, ⟨_, rfl⟩, n.records.toList, hm.records, ?_⟩))
        split <;> exact List.prefix_rfl
    · rw [applyBuiltin_eq, hx, applyBuiltin_of_error t hy hg]
      exact .refused ⟨g, hrefuses, rfl⟩ _ _ _
  grows _ n := by
    rw [applyBuiltin_eq]
    split <;> exact List.prefix_rfl

theorem simulates_callBuiltin (t : Token) {name : String} {arity : Option Nat}
    (hk : S.known name arity) {xs : List (Binding α)} {ys : List (Binding β)}
    (h : List.Forall₂ (Binding.Related S.same S.known S.fit) xs ys) :
    S.Simulates (Rel.value S) (Eval.callBuiltin a t name arity xs)
      (Eval.callBuiltin b t name arity ys) := by
  have hn := numbers_related h
  have hb := S.builtins name arity hk
  unfold Eval.callBuiltin
  simp only [h.length_eq]
  split
  · exact .failAt _ _
  · next hcount =>
    have hlength : ∀ vs, numbers? xs = some vs → arity.all (· = vs.length) := by
      intro vs hvs
      rw [length_numbers hvs, h.length_eq]
      cases arity with
      | none => rfl
      | some k => simpa using hcount
    generalize numbers? xs = x at hn hlength ⊢
    generalize numbers? ys = y at hn ⊢
    generalize a.system.builtin? name = u at hb ⊢
    generalize b.system.builtin? name = v at hb ⊢
    cases hn with
    | none => exact .failAt _ _
    | some hv =>
      cases hb with
      | none => exact .failAt _ _
      | some hd =>
        exact simulates_applyBuiltin t (fun r u hr => hd _ _ r u (hlength _ rfl) hv hr)

theorem simulates_bindAll (scope : Scope) (names : List String) {xs : List (Binding α)}
    {ys : List (Binding β)} (h : List.Forall₂ (Binding.Related S.same S.known S.fit) xs ys) :
    S.Simulates (Rel.eq S Unit) (Eval.bindAll scope names xs) (Eval.bindAll scope names ys) := by
  induction names generalizing xs ys with
  | nil => exact .pure rfl
  | cons name names ih =>
    cases h with
    | nil => exact .pure rfl
    | cons hx hxs => exact (S.declareIn scope name hx).bind (fun _ _ _ => ih hxs)

theorem simulates_callScope (f : Function) {xs : List (Binding α)} {ys : List (Binding β)}
    (h : List.Forall₂ (Binding.Related S.same S.known S.fit) xs ys) :
    S.Simulates (Rel.eq S Scope) (Eval.callScope f xs) (Eval.callScope f ys) := by
  refine (S.child f.scope).bind ?_
  rintro inner _ rfl
  exact (simulates_bindAll inner f.parameters h).bind (fun _ _ _ => .pure rfl)

theorem simulates_callFunction (hp : PartsRelated S p q) (calls : Nat) (t : Token) {f : Function}
    (hf : S.fit f.body) {xs : List (Binding α)} {ys : List (Binding β)}
    (h : List.Forall₂ (Binding.Related S.same S.known S.fit) xs ys) :
    S.Simulates (Rel.value S) (Eval.callFunction a p calls t f xs)
      (Eval.callFunction b q calls t f ys) := by
  unfold Eval.callFunction
  simp only [h.length_eq]
  split
  · exact .failAt _ _
  · refine (simulates_callScope f h).bind ?_
    rintro inner _ rfl
    refine (S.debugSame 2 _).bind (fun _ _ _ => ?_)
    cases calls with
    | zero => exact .failAt _ _
    | succ calls => exact hp.expression calls inner f.body t.stop hf

theorem simulates_call (hp : PartsRelated S p q) (calls : Nat) (scope : Scope) (t name group : Token)
    (h : ∀ runs, Token.splitArguments group.closerIndex group.children = .ok runs →
      ∀ run ∈ runs, S.fit run) :
    S.Simulates (Rel.value S) (Eval.call a p calls scope t name group)
      (Eval.call b q calls scope t name group) := by
  -- the arguments come before the function is applied, whatever it is
  have hargs : ∀ (x : List (Binding α) → Run α α) (y : List (Binding β) → Run β β),
      (∀ xs ys, List.Forall₂ (Binding.Related S.same S.known S.fit) xs ys →
        S.Simulates (Rel.value S) (x xs) (y ys)) →
      S.Simulates (Rel.value S)
        (do
          let runs ← Run.ofExcept (Token.splitArguments group.closerIndex group.children)
          x (← Eval.arguments p calls scope runs))
        (do
          let runs ← Run.ofExcept (Token.splitArguments group.closerIndex group.children)
          y (← Eval.arguments q calls scope runs)) := by
    intro x y hxy
    cases hs : Token.splitArguments group.closerIndex group.children with
    | error f => exact .throw (.fault _)
    | ok runs => exact (simulates_arguments hp calls scope runs (h runs hs)).bind hxy
  unfold Eval.call
  dsimp only
  split
  · exact .failAt _ _
  · refine (S.lookup scope name.value).bind ?_
    intro x y hx
    cases hx with
    | none => exact .failAt _ _
    | some hb =>
      cases hb with
      | number hv constant => exact .failAt _ _
      | builtin hk => exact hargs _ _ (fun _ _ hh => simulates_callBuiltin t hk hh)
      | function hf => exact hargs _ _ (fun _ _ hh => simulates_callFunction hp calls t hf hh)

theorem simulates_token (hp : PartsRelated S p q) (calls : Nat) (scope : Scope) {t : Token}
    (h : t.Fit S.literal S.fit S.keyed) :
    S.Simulates (Rel.value S) (Eval.token a p calls scope t) (Eval.token b q calls scope t) := by
  unfold Eval.token
  split
  · next hn => exact .orStop ((S.parse t.value (h.number hn)).mapError .ofLiteral)
  · split
    · exact simulates_variableValue scope t
    · cases t with
      | leaf kind value index stop =>
        dsimp only
        split <;> exact .failAt _ _
      | call kind value index stop name group =>
        exact simulates_call hp calls scope _ name group h.parts
      | group kind value index stop children opener closer =>
        have hparts := h.parts
        simp only [Token.PartsFit] at hparts
        dsimp only
        split at hparts
        · next ho =>
          rw [if_pos ho, if_pos ho]
          exact hp.expression calls scope children index hparts
        · next ho =>
          rw [if_neg ho, if_neg ho]
          exact simulates_innerBlock hp calls scope hparts

theorem factorial_eq (setup : Setup α) {x : Builtin α}
    (hx : setup.system.builtin? "fac" = some x) (t : Token) (v : α) (m : Machine α) :
    Eval.factorial setup t v m =
      match x.run [v] m.resources with
      | .ok w r => .ok w { m with resources := r }
      | .error .inputRequired r => .error (.input "") { m with resources := r }
      | .error f r =>
        .error (.fault (t.fault (Text.capitalized f.message))) { m with resources := r } := by
  unfold Eval.factorial
  rw [hx]
  dsimp only
  rw [Run.bind_eq, Run.builtin_eq]
  cases x.run [v] m.resources with
  | ok w r => rfl
  | error f r => cases f <;> rfl

theorem simulates_factorial (t : Token) {v : α} {w : β} (h : S.same v w) :
    S.Simulates (Rel.value S) (Eval.factorial a t v) (Eval.factorial b t w) := by
  have hb := S.factorial
  cases hx : a.system.builtin? "fac" with
  | none =>
    rw [hx] at hb
    cases hy : b.system.builtin? "fac" with
    | none =>
      simp only [Eval.factorial, hx, hy]
      exact .throw (.defect _)
    | some y =>
      rw [hy] at hb
      cases hb
  | some x =>
    rw [hx] at hb
    cases hy : b.system.builtin? "fac" with
    | none =>
      rw [hy] at hb
      cases hb
    | some y =>
      rw [hy] at hb
      constructor
      · intro m n hm
        have hd := Option.rel_some_some.mp hb v w m.resources n.resources h hm.resources
        rw [factorial_eq a hx, factorial_eq b hy]
        generalize x.run [v] m.resources = r at hd ⊢
        generalize y.run [w] n.resources = u at hd ⊢
        cases hd with
        | ok hv hr => exact .ok hv { hm with resources := hr }
        | @error f g _ _ hf hr =>
          by_cases hi : f = .inputRequired
          · have hg := (S.inputRequired f g hf).mp hi
            subst hi hg
            exact .error (.input hf _) { hm with resources := hr }
          · have hg : g ≠ .inputRequired := fun hg => hi ((S.inputRequired f g hf).mpr hg)
            simp only [S.message f g hf]
            exact .error (.fault _) { hm with resources := hr }
        | lacking hl => exact hl.elim
      · intro _ n
        rw [factorial_eq b hy]
        split <;> exact List.prefix_rfl

def Rel.operands (S : Simulation a b) : S.Rel (List α × List Token) (List β × List Token) :=
  (Rel.value S).list.prod (Rel.eq S (List Token))

theorem simulates_operands (hp : PartsRelated S p q) (calls : Nat) (scope : Scope)
    (tokens : List Token) (h : ∀ t ∈ tokens, t.Fit S.literal S.fit S.keyed) {vs : List α} {ws : List β}
    (hv : List.Forall₂ S.same vs ws) (ops : List Token) (expectsValue : Bool) :
    S.Simulates (Rel.operands S) (Eval.operands a p calls scope tokens vs ops expectsValue)
      (Eval.operands b q calls scope tokens ws ops expectsValue) := by
  induction tokens generalizing vs ws ops expectsValue with
  | nil =>
    cases expectsValue with
    | false => exact .pure ⟨List.rel_reverse hv, rfl⟩
    | true =>
      cases ops with
      | nil => exact .throw (.defect _)
      | cons op ops => exact .failAt _ _
  | cons t rest ih =>
    have hrest : ∀ t ∈ rest, t.Fit S.literal S.fit S.keyed := fun t ht => h t (by simp [ht])
    unfold Eval.operands
    split
    · refine (simulates_token hp calls scope (h t (by simp))).bind ?_
      intro v w hvw
      exact ih hrest (.cons hvw hv) _ _
    · split
      · split
        · exact .failAt _ _
        · split
          · cases hv with
            | nil => exact .throw (.defect _)
            | cons hvw hv =>
              refine (simulates_factorial t hvw).bind ?_
              intro v w hvw
              exact ih hrest (.cons hvw hv) _ _
          · exact ih hrest hv _ _
      · exact .failAt _ _

section Postfix

variable {ε ζ : Type} {same : α → β → Prop} {sign : Token → Token → Prop} {E : ε → ζ → Prop}

inductive ItemRelated (same : α → β → Prop) (sign : Token → Token → Prop) :
    Postfix.Item α → Postfix.Item β → Prop where
  | value {v : α} {w : β} (h : same v w) : ItemRelated same sign (.value v) (.value w)
  | operator {op op' : Token} (h : sign op op') :
      ItemRelated same sign (.operator op) (.operator op')

/-- Operators that are applied alike. -/
def RankedRelated (sign : Token → Token → Prop) (x y : Postfix.Ranked) : Prop :=
  sign x.1 y.1 ∧ x.2 = y.2

theorem unstack_related (r : Precedence) {stack stack' : List Postfix.Ranked}
    (hs : List.Forall₂ (RankedRelated sign) stack stack')
    {xs : List (Postfix.Item α)} {ys : List (Postfix.Item β)}
    (h : List.Forall₂ (ItemRelated same sign) xs ys) :
    List.Forall₂ (RankedRelated sign) (Postfix.unstack r stack xs).1
        (Postfix.unstack r stack' ys).1 ∧
      List.Forall₂ (ItemRelated same sign) (Postfix.unstack r stack xs).2
        (Postfix.unstack r stack' ys).2 := by
  induction hs generalizing xs ys with
  | nil => exact ⟨.nil, h⟩
  | @cons x y stack stack' hxy hs ih =>
    obtain ⟨op, u⟩ := x
    obtain ⟨op', _⟩ := y
    obtain ⟨hop, rfl⟩ := hxy
    simp only [Postfix.unstack]
    split
    · exact ih (.cons (.operator hop) h)
    · exact ⟨.cons ⟨hop, rfl⟩ hs, h⟩

theorem arrange_related {ops ops' : List Postfix.Ranked}
    (ho : List.Forall₂ (RankedRelated sign) ops ops') {vs : List α} {ws : List β}
    (hv : List.Forall₂ same vs ws) {stack stack' : List Postfix.Ranked}
    (hs : List.Forall₂ (RankedRelated sign) stack stack')
    {xs : List (Postfix.Item α)} {ys : List (Postfix.Item β)}
    (h : List.Forall₂ (ItemRelated same sign) xs ys) :
    List.Forall₂ (ItemRelated same sign) (Postfix.arrange ops vs stack xs)
      (Postfix.arrange ops' ws stack' ys) := by
  have hend : ∀ {stack stack' : List Postfix.Ranked},
      List.Forall₂ (RankedRelated sign) stack stack' → List.Forall₂ (ItemRelated same sign)
        (stack.map (fun r => .operator r.1)) (stack'.map (fun r => .operator r.1)) := by
    intro stack stack' hs
    rw [List.forall₂_map_left_iff, List.forall₂_map_right_iff]
    exact hs.imp (fun _ _ hop => .operator hop.1)
  induction ho generalizing vs ws stack stack' xs ys with
  | nil =>
    simp only [Postfix.arrange]
    exact List.rel_append (List.rel_reverse h) (hend hs)
  | @cons x y ops ops' hxy _ ih =>
    obtain ⟨op, u⟩ := x
    obtain ⟨op', _⟩ := y
    obtain ⟨hop, rfl⟩ := hxy
    cases hv with
    | nil =>
      simp only [Postfix.arrange]
      exact List.rel_append (List.rel_reverse h) (hend hs)
    | cons hvw hv =>
      obtain ⟨hs, hu⟩ := unstack_related _ hs h
      simp only [Postfix.arrange]
      exact ih hv (.cons ⟨hop, rfl⟩ hs) (.cons (.value hvw) hu)

theorem evaluateFrom_related {f : α → Token → α → Except ε α}
    {g : β → Token → β → Except ζ β}
    (hf : ∀ v w v' w' op op', sign op op' → same v w → same v' w' →
      SameResult E same (f v op v') (g w op' w'))
    {xs : List (Postfix.Item α)} {ys : List (Postfix.Item β)}
    (h : List.Forall₂ (ItemRelated same sign) xs ys) {vs : List α} {ws : List β}
    (hv : List.Forall₂ same vs ws) :
    SameResult E (List.Forall₂ same) (Postfix.evaluateFrom f xs vs)
      (Postfix.evaluateFrom g ys ws) := by
  induction h generalizing vs ws with
  | nil => exact .ok hv
  | cons hx _ ih =>
    cases hx with
    | value hvw => exact ih (.cons hvw hv)
    | @operator op op' hop =>
      match vs, ws, hv with
      | [], [], hv => exact ih hv
      | [_], [_], hv => exact ih hv
      | v :: v' :: _, w :: w' :: _, .cons hvw (.cons hvw' hv) =>
        have ho := hf v' w' v w op op' hop hvw' hvw
        simp only [Postfix.evaluateFrom]
        generalize f v' op v = x at ho ⊢
        generalize g w' op' w = y at ho ⊢
        cases ho with
        | ok hc => exact ih (.cons hc hv)
        | error he => exact .error he

theorem getLastD_related {vs : List α} {ws : List β} (h : List.Forall₂ same vs ws) {v : α} {w : β}
    (hv : same v w) : same (vs.getLastD v) (ws.getLastD w) := by
  induction h generalizing v w with
  | nil => exact hv
  | cons hvw _ ih => simpa only [List.getLastD_cons] using ih hvw

theorem evaluate_related {f : α → Token → α → Except ε α} {g : β → Token → β → Except ζ β}
    (hf : ∀ v w v' w' op op', sign op op' → same v w → same v' w' →
      SameResult E same (f v op v') (g w op' w'))
    {ops ops' : List Postfix.Ranked} (ho : List.Forall₂ (RankedRelated sign) ops ops')
    {v : α} {w : β} (hvw : same v w) {vs : List α} {ws : List β}
    (hv : List.Forall₂ same vs ws) :
    SameResult E same (Postfix.evaluate f (Postfix.ofInfix v vs ops) v)
      (Postfix.evaluate g (Postfix.ofInfix w ws ops') w) := by
  have hi := arrange_related ho hv .nil (.cons (.value hvw) .nil)
  have he := evaluateFrom_related hf hi .nil
  simp only [Postfix.evaluate, Postfix.ofInfix]
  generalize Postfix.evaluateFrom f _ _ = x at he ⊢
  generalize Postfix.evaluateFrom g _ _ = y at he ⊢
  cases he with
  | ok hs => exact .ok (getLastD_related hs hvw)
  | error hf => exact .error hf

end Postfix

theorem applyOperator_related {v v' : α} {w w' : β} (op : Token) (h : S.same v w)
    (h' : S.same v' w') :
    SameResult S.Stops S.same (applyOperator a v op v') (applyOperator b w op w') :=
  (S.basic v w v' w' op.value h h').mapError (.ofFailure _ _)

theorem simulates_operation (hp : PartsRelated S p q) (calls : Nat) (scope : Scope)
    (tokens : List Token) (h : ∀ t ∈ tokens, t.Fit S.literal S.fit S.keyed) :
    S.Simulates (Rel.value S) (Eval.operation a p calls scope tokens)
      (Eval.operation b q calls scope tokens) := by
  refine (simulates_operands hp calls scope tokens h .nil [] true).bind ?_
  rintro ⟨vs, ops⟩ ⟨ws, _⟩ ⟨hv, rfl⟩
  cases hv with
  | nil => exact .throw (.defect _)
  | @cons v w vs ws hvw hv =>
    dsimp only
    split
    · exact .throw (.defect _)
    · next ranked _ =>
      refine .orStop ?_
      have hranked : List.Forall₂ (RankedRelated Eq) ranked ranked :=
        List.forall₂_same.mpr (fun _ _ => ⟨rfl, rfl⟩)
      refine evaluate_related ?_ hranked hvw hv
      rintro _ _ _ _ op _ rfl h h'
      exact applyOperator_related op h h'

theorem Related.isFunction_eq {m : Machine α} {n : Machine β} (h : S.Related m n) (scope : Scope) :
    (fun name => (m.frames.get scope name).any Binding.isFunction) =
      fun name => (n.frames.get scope name).any Binding.isFunction := by
  funext name
  have hg := h.frames.get scope name
  generalize m.frames.get scope name = x at hg ⊢
  generalize n.frames.get scope name = y at hg ⊢
  cases hg with
  | none => rfl
  | some hb => exact hb.isFunction_eq

theorem simulates_strictTokens (scope : Scope) (tokens : List Token) (P : List Token → Prop)
    (hP : S.lessInput → ∀ ts, P ts)
    (h : ∀ isFunction, P (if a.strict then Token.splitWords isFunction tokens else tokens)) :
    S.Simulates (Rel.only S P hP) (Eval.strictTokens a scope tokens)
      (Eval.strictTokens b scope tokens) := by
  unfold Eval.strictTokens
  rw [← S.strict_eq]
  by_cases hs : a.strict = true
  · simp only [hs, if_true] at h ⊢
    -- both runs split with the same functions in sight
    have hd : ∀ known known' : String → Bool, known = known' → S.Simulates (Rel.only S P hP)
        (do
          Run.debug a 3 (fun _ => "strict rewrite: " ++
            " ".intercalate ((Token.splitWords known tokens).map Token.value))
          return Token.splitWords known tokens)
        (do
          Run.debug b 3 (fun _ => "strict rewrite: " ++
            " ".intercalate ((Token.splitWords known' tokens).map Token.value))
          return Token.splitWords known' tokens) := by
      rintro known _ rfl
      exact (S.debugSame 3 _).bind (fun _ _ _ => .pure ⟨rfl, h known⟩)
    constructor
    · intro m n hm
      exact (hd _ _ (hm.isFunction_eq scope)).ends m n hm
    · intro hl n
      exact (hd _ (fun name => (n.frames.get scope name).any Binding.isFunction) rfl).grows hl n
  · simp only [hs] at h ⊢
    exact .pure ⟨rfl, h (fun _ => false)⟩

theorem withZero_fit (first : Token) {tokens : List Token}
    (h : ∀ t ∈ tokens, t.Fit S.literal S.fit S.keyed) :
    ∀ t ∈ withZero first tokens, t.Fit S.literal S.fit S.keyed := by
  intro t ht
  unfold withZero at ht
  split at ht
  · rcases List.mem_cons.mp ht with rfl | ht
    · exact ⟨fun _ => S.literal_zero, trivial⟩
    · exact h t ht
  · exact h t ht

theorem simulates_expressionWith (hp : PartsRelated S p q) (calls : Nat) (scope : Scope)
    {tokens : List Token} (h : S.fit tokens) (offset : Int) :
    S.Simulates (Rel.value S) (expressionWith a p calls scope tokens offset)
      (expressionWith b q calls scope tokens offset) := by
  unfold expressionWith
  dsimp only
  cases hf : tokens.filter (fun t => !t.isNewline) with
  | nil => exact .fail _ _ _
  | cons first rest =>
    dsimp only
    split
    · next hb => exact simulates_innerBlock hp calls scope (S.fit_block tokens first rest h hf hb)
    · next hb =>
      refine (simulates_strictTokens scope (first :: rest)
        (fun ts => ∀ t ∈ ts, t.Fit S.literal S.fit S.keyed)
        (fun hl _ t _ => ⟨fun _ => S.literal_all hl _,
          Token.partsFit_of_all (S.fit_all hl) (S.keyed_all hl) t⟩)
        (fun isFunction => S.fit_tokens tokens first rest isFunction h hf hb)).bind ?_
      rintro ts _ ⟨rfl, hts⟩
      have hz := withZero_fit first hts
      split
      · next t ht => exact simulates_token hp calls scope (hz t (by simp [ht]))
      · exact simulates_operation hp calls scope _ hz

end Abacus.Simulation
