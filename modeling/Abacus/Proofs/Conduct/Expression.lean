import Abacus.Proofs.Conduct.Steps
import Abacus.Proofs.Postfix

/-! Expressions keep to a conduct, given that the expressions and blocks inside them do. They declare
no names around them and record nothing but prints. -/

namespace Abacus.Conduct

open Eval Run

variable {α : Type} {setup : Setup α} {C : Conduct setup} {fit : List Token → Prop}
  {fitBlock : List Statement → Prop} {p : Parts α} {w : C.World} {a : Additions}

/-- The parts of a script keep to the conduct, for the token runs and the blocks that fit. Whatever
may become a function fits. -/
structure PartsObey (C : Conduct setup) (fit : List Token → Prop)
    (fitBlock : List Statement → Prop) (p : Parts α) : Prop where
  expression : ∀ w calls scope tokens offset, C.made w scope → fit tokens → C.Place offset →
    C.Obeys w (.quiet scope) Anything (p.expression calls scope tokens offset)
  block : ∀ w calls scope body report, C.made w scope → fitBlock body →
    C.Obeys w ⟨scope, body.length, report, []⟩ Anything (p.block calls scope body false report)
  functions : ∀ tokens, C.body tokens → fit tokens

/-- What is read from the tokens may be remembered for the place, and whatever may be remembered for
it fits. -/
structure Readable (C : Conduct setup) (fitBlock : List Statement → Prop) (key : Int × Int)
    (tokens : List Token) : Prop where
  read : ∀ body, Statement.ofTokens setup.source setup.strict tokens = .ok body → C.block key body
  known : ∀ body, C.block key body → fitBlock body
  fault : ∀ f, Statement.ofTokens setup.source setup.strict tokens = .error f →
    C.stops.may (.fault f)

/-- An argument may be evaluated, and a fault may be where it starts. -/
structure ArgumentFits (C : Conduct setup) (fit : List Token → Prop) (tokens : List Token) :
    Prop where
  fits : fit tokens
  start : C.Place ((tokens.head?.map Token.index).getD 0)

/-- A token may stand in an expression: whatever goes wrong with it may go wrong. -/
structure TokenFits (C : Conduct setup) (fit : List Token → Prop)
    (fitBlock : List Statement → Prop) (t : Token) : Prop where
  index : C.Place t.index
  stop : C.Place t.stop
  literal : t.IsNumber → ∀ f, setup.system.parse t.value = .error f → C.stops.may (.ofLiteral f)
  operator : t.kind = .operator → t.value ≠ "!" → Precedence.of? t.value = none →
    C.stops.may (.defect (.operator t.value))
  parts : t.PartsFit (ArgumentFits C fit) (Readable C fitBlock)
  called : ∀ kind value index stop name arguments,
    t = .call kind value index stop name arguments → C.Place name.index ∧
      ∀ f, Token.splitArguments arguments.closerIndex arguments.children = .error f →
        C.stops.may (.fault f)

/-- The words of an expression may stand in it, and there is one unless there need be none. -/
structure WordsFit (C : Conduct setup) (fit : List Token → Prop)
    (fitBlock : List Statement → Prop) (words : List Token) : Prop where
  tokens : ∀ t ∈ words, TokenFits C fit fitBlock t
  none : words = [] → C.stops.may (.defect .noOperand)

/-- A run whose value can be found from parts that fit. -/
structure Evaluable (C : Conduct setup) (fit : List Token → Prop)
    (fitBlock : List Statement → Prop) (tokens : List Token) : Prop where
  first : ∀ first rest, tokens.filter (fun t => !t.isNewline) = first :: rest →
    C.Place first.index
  block : ∀ first rest, tokens.filter (fun t => !t.isNewline) = first :: rest →
    startsBlock first = true →
      Readable C fitBlock (first.index, Token.stopOf (first :: rest) first.stop) (first :: rest)
  tokens : ∀ first rest isFunction, tokens.filter (fun t => !t.isNewline) = first :: rest →
    startsBlock first = false → WordsFit C fit fitBlock
      (if setup.strict then Token.splitWords isFunction (first :: rest) else first :: rest)

section Calls

theorem innerBlock_obeys (hp : PartsObey C fit fitBlock p) (calls : Nat) {scope : Scope}
    (hs : C.made w scope) {key : Int × Int} {tokens : List Token}
    (ht : Readable C fitBlock key tokens) :
    C.Obeys w (.quiet scope) Anything (innerBlock setup p calls scope key tokens) := by
  refine (obeys_block ht.known ht.read ht.fault).bind (fun body w₁ hw₁ hbody => ?_)
  refine (child_makes scope).bind (C.made_mono hw₁ hs) nofun body.length
    (fun inner w₂ _ hinner => ?_)
  exact (hp.block w₂ calls inner body false hinner hbody).bindEnd (fun _ _ _ _ => .done _)

theorem variableValue_obeys (scope : Scope) {t : Token} (ht : C.Place t.index) :
    C.Obeys w a Anything (variableValue scope t : Run α α) := by
  refine (obeys_lookup scope t.value).bind (fun found _ _ _ => ?_)
  match found with
  | none => exact .failAt ht _
  | some (.number v _) => exact .done v
  | some (.builtin _ _) => exact .failAt ht _
  | some (.function _) => exact .failAt ht _

/-- A parameter may be bound to it. -/
def Takes (C : Conduct setup) (w : C.World) (b : Binding α) : Prop :=
  b.Passable ∧ ∀ g, b = .function g → C.admits w g

theorem Takes.later {w' : C.World} {b : Binding α} (hb : Takes C w b) (hw : C.Before w w') :
    Takes C w' b :=
  ⟨hb.1, fun g hg => C.admits_mono hw (hb.2 g hg)⟩

theorem argument_obeys (hp : PartsObey C fit fitBlock p) (calls : Nat) {scope : Scope}
    (hs : C.made w scope) {tokens : List Token} (ht : ArgumentFits C fit tokens) :
    C.Obeys w (.quiet scope) (Takes C) (argument p calls scope tokens) := by
  have hnumber : ∀ w', C.Before w w' → C.Obeys w' (.quiet scope) (Takes C) (do
      return Binding.number
        (← p.expression calls scope tokens ((tokens.head?.map Token.index).getD 0)) false) := by
    intro w' hw
    refine (hp.expression w' calls scope tokens _ (C.made_mono hw hs) ht.fits ht.start).bind ?_
    exact fun v _ _ _ => .pure (fun _ _ => ⟨Binding.passable_variable v, nofun⟩)
  rcases tokens with _ | ⟨t, _ | ⟨u, rest⟩⟩
  · exact hnumber w (C.refl w)
  · unfold argument
    dsimp only
    split
    · refine (obeys_lookup scope t.value).bind (fun found w₁ hw₁ hfound => ?_)
      rcases found with _ | (_ | _ | g)
      · exact hnumber w₁ hw₁
      · exact hnumber w₁ hw₁
      · exact .pure (fun _ _ => ⟨nofun, nofun⟩)
      · refine .pure (fun w₂ hw₂ => ⟨Binding.passable_function g, ?_⟩)
        rintro _ ⟨⟩
        exact C.admits_mono hw₂ (hfound g rfl)
    · exact hnumber w (C.refl w)
  · exact hnumber w (C.refl w)

theorem arguments_obeys (hp : PartsObey C fit fitBlock p) (calls : Nat) {scope : Scope}
    (hs : C.made w scope) {runs : List (List Token)} (hr : ∀ run ∈ runs, ArgumentFits C fit run) :
    C.Obeys w (.quiet scope) (fun w' bs => ∀ b ∈ bs, Takes C w' b)
      (arguments p calls scope runs) := by
  induction runs generalizing w with
  | nil => exact .pure (fun _ _ => nofun)
  | cons run runs ih =>
    obtain ⟨hrun, hruns⟩ := List.forall_mem_cons.mp hr
    refine (argument_obeys hp calls hs hrun).bind (fun b w₁ hw₁ hb => ?_)
    refine (ih (C.made_mono hw₁ hs) hruns).bind (fun bs w₂ hw₂ hbs => ?_)
    refine .pure (fun w₃ hw₃ => List.forall_mem_cons.mpr ⟨?_, fun c hc => (hbs c hc).later hw₃⟩)
    exact hb.later (C.trans hw₂ hw₃)

theorem applyBuiltin_obeys {t : Token} (ht : C.Place t.index) (b : Builtin α) (args : List α) :
    C.Obeys w a Anything (applyBuiltin t b args) := by
  refine (leads_builtin b args).bind (fun r _ _ _ => ?_)
  match r with
  | .ok v => exact .done v
  | .error f =>
    cases f with
    | inputRequired => exact leads_get.bind (fun m _ _ _ => .throw (C.stops.input m.statement))
    | _ => exact .ofResult ht _

theorem callBuiltin_obeys {t : Token} (ht : C.Place t.index) (name : String) (arity : Option Nat)
    (args : List (Binding α)) : C.Obeys w a Anything (callBuiltin setup t name arity args) := by
  unfold callBuiltin
  dsimp only
  split
  · exact .failAt ht _
  · split
    · exact applyBuiltin_obeys ht _ _
    · exact .failAt ht _

theorem callFunction_obeys (hp : PartsObey C fit fitBlock p) (calls : Nat) (scope : Scope)
    {t : Token} (ht : C.Place t.index) (hstop : C.Place t.stop) {g : Function}
    (hg : C.admits w g) {args : List (Binding α)} (hargs : ∀ b ∈ args, Takes C w b) :
    C.Obeys w (.quiet scope) Anything (callFunction setup p calls t g args) := by
  obtain ⟨hs, hbody⟩ := C.called hg
  unfold callFunction
  dsimp only
  split
  · exact .failAt ht _
  · refine (child_bindAll_makes g.scope g.parameters args).bind hs
      (fun e he => .parameter hg rfl he.1 (hargs _ he.2).1 (hargs _ he.2).2) 0
      (fun inner w₁ _ hinner => ?_)
    refine (leads_debug 2 _).bind (fun _ w₂ hw₂ _ => ?_)
    cases calls with
    | zero => exact .failAt ht _
    | succ calls =>
      exact hp.expression w₂ calls inner g.body t.stop (C.made_mono hw₂ hinner)
        (hp.functions _ hbody) hstop

theorem call_obeys (hp : PartsObey C fit fitBlock p) (calls : Nat) {scope : Scope}
    (hs : C.made w scope) {t name group : Token} (ht : C.Place t.index) (hstop : C.Place t.stop)
    (hname : C.Place name.index)
    (hruns : ∀ runs, Token.splitArguments group.closerIndex group.children = .ok runs →
      ∀ run ∈ runs, ArgumentFits C fit run)
    (hfault : ∀ f, Token.splitArguments group.closerIndex group.children = .error f →
      C.stops.may (.fault f)) :
    C.Obeys w (.quiet scope) Anything (call setup p calls scope t name group) := by
  have hsplit : ∀ w', C.Obeys w' (.quiet scope) (fun _ runs => ∀ run ∈ runs, ArgumentFits C fit run)
      (Run.ofExcept (Token.splitArguments group.closerIndex group.children) : Run α _) :=
    fun _ => .ofExcept (fun runs hok _ _ => hruns runs hok) hfault
  unfold call
  dsimp only
  split
  · exact .failAt ht _
  · refine (obeys_lookup scope name.value).bind (fun found w₁ hw₁ hfound => ?_)
    match found with
    | none => exact .failAt hname _
    | some (.number _ _) => exact .failAt hname _
    | some (.builtin builtin arity) =>
      refine (hsplit w₁).bind (fun runs w₂ hw₂ hr => ?_)
      refine (arguments_obeys hp calls (C.made_mono (C.trans hw₁ hw₂) hs) hr).bind
        (fun args _ _ _ => ?_)
      exact callBuiltin_obeys ht builtin arity args
    | some (.function g) =>
      refine (hsplit w₁).bind (fun runs w₂ hw₂ hr => ?_)
      refine (arguments_obeys hp calls (C.made_mono (C.trans hw₁ hw₂) hs) hr).bind
        (fun args w₃ hw₃ hargs => ?_)
      exact callFunction_obeys hp calls scope ht hstop
        (C.admits_mono (C.trans hw₂ hw₃) (hfound g rfl)) hargs

end Calls

section Operations

theorem token_obeys (hp : PartsObey C fit fitBlock p) (calls : Nat) {scope : Scope}
    (hs : C.made w scope) {t : Token} (ht : TokenFits C fit fitBlock t) :
    C.Obeys w (.quiet scope) Anything (token setup p calls scope t) := by
  unfold token
  split
  · next hnumber =>
    refine .orStop (fun e he => ?_)
    cases hparse : setup.system.parse t.value with
    | ok v =>
      rw [hparse] at he
      cases he
    | error f =>
      rw [hparse] at he
      cases he
      exact ht.literal hnumber f hparse
  · split
    · exact variableValue_obeys scope ht.index
    · obtain ⟨hindex, hstop, _, _, hparts, hcalled⟩ := ht
      cases t with
      | leaf kind value index stop =>
        dsimp only
        split <;> exact .failAt hindex _
      | call kind value index stop name group =>
        obtain ⟨hname, hfault⟩ := hcalled _ _ _ _ _ _ rfl
        exact call_obeys hp calls hs hindex hstop hname hparts hfault
      | group kind value index stop children opener closer =>
        simp only [Token.PartsFit] at hparts
        dsimp only
        split
        · next hopener =>
          rw [if_pos hopener] at hparts
          exact hp.expression w calls scope children index hs hparts.fits hindex
        · next hopener =>
          rw [if_neg hopener] at hparts
          exact innerBlock_obeys hp calls hs hparts

theorem factorial_obeys {t : Token} (ht : C.Place t.index) (v : α) :
    C.Obeys w a Anything (factorial setup t v) := by
  unfold factorial
  split
  · next b _ =>
    refine (leads_builtin b [v]).bind (fun r _ _ _ => ?_)
    match r with
    | .ok w => exact .done w
    | .error f =>
      cases f with
      | inputRequired => exact .throw (C.stops.input "")
      | _ => exact .ofResult ht _
  · next hnone => exact .throw (C.stops.factorial hnone)

/-- A fault may be at the operator, and it has a precedence unless one may be lacking. -/
def Ready (C : Conduct setup) (op : Token) : Prop :=
  C.Place op.index ∧
    (Precedence.of? op.value = none → C.stops.may (.defect (.operator op.value)))

/-- There are values when an operator may follow, and a value is expected only before a token or
behind an operator. -/
theorem operands_obeys (hp : PartsObey C fit fitBlock p) (calls : Nat) {scope : Scope}
    (hs : C.made w scope) {tokens : List Token} {values : List α} {ops : List Token}
    {expectsValue : Bool} (ht : ∀ t ∈ tokens, TokenFits C fit fitBlock t)
    (ho : ∀ op ∈ ops, Ready C op) (hv : expectsValue = false → values ≠ [])
    (he : expectsValue = true → tokens = [] → ops = [] → C.stops.may (.defect .noOperand)) :
    C.Obeys w (.quiet scope) (fun _ r => r.1 ≠ [] ∧ ∀ op ∈ r.2, Ready C op)
      (operands setup p calls scope tokens values ops expectsValue) := by
  induction tokens generalizing w values ops expectsValue with
  | nil =>
    cases expectsValue with
    | false =>
      refine .pure (fun _ _ => ⟨?_, fun op hop => ho op (List.mem_reverse.mp hop)⟩)
      simpa using hv rfl
    | true =>
      cases ops with
      | nil => exact .throw (he rfl rfl rfl)
      | cons op ops => exact .failAt (ho op List.mem_cons_self).1 _
  | cons t rest ih =>
    obtain ⟨hfirst, hrest⟩ := List.forall_mem_cons.mp ht
    unfold operands
    split
    · -- a value, with a product in front of it if there is one before
      refine (token_obeys hp calls hs hfirst).bind (fun v w₁ hw₁ _ => ?_)
      refine ih (C.made_mono hw₁ hs) hrest ?_ (by simp) (by simp)
      split
      · exact ho
      · exact List.forall_mem_cons.mpr ⟨⟨hfirst.index, nofun⟩, ho⟩
    · split
      · next hk =>
        split
        · exact .failAt hfirst.index _
        · next hexpects =>
          split
          · cases values with
            | nil => exact absurd rfl (hv (by simpa using hexpects))
            | cons v values =>
              refine (factorial_obeys hfirst.index v).bind (fun _ w₁ hw₁ _ => ?_)
              exact ih (C.made_mono hw₁ hs) hrest ho (by simp) (by simp)
          · next hfactorial =>
            have hready : Ready C t := ⟨hfirst.index, hfirst.operator hk hfactorial⟩
            exact ih hs hrest (List.forall_mem_cons.mpr ⟨hready, ho⟩) (by simp) (by simp)
      · exact .failAt hfirst.index _

theorem operation_obeys (hp : PartsObey C fit fitBlock p) (calls : Nat) {scope : Scope}
    (hs : C.made w scope) {tokens : List Token} (ht : WordsFit C fit fitBlock tokens) :
    C.Obeys w (.quiet scope) Anything (operation setup p calls scope tokens) := by
  refine (operands_obeys hp calls hs ht.tokens (by simp) (by simp)
    (fun _ hnil _ => ht.none hnil)).bind ?_
  rintro ⟨values, ops⟩ _ _ ⟨hvalues, hops⟩
  cases values with
  | nil => exact absurd rfl hvalues
  | cons first values =>
    dsimp only
    split
    · next value hrank =>
      obtain ⟨op, hmem, rfl, hnone⟩ := Postfix.rank_error hrank
      exact .throw ((hops op hmem).2 hnone)
    · next ranked hrank =>
      refine .orStop (fun e he => ?_)
      unfold Postfix.evaluate at he
      cases hevaluate : Postfix.evaluateFrom (applyOperator setup)
          (Postfix.ofInfix first values ranked) [] with
      | ok stack =>
        rw [hevaluate] at he
        cases he
      | error e' =>
        rw [hevaluate] at he
        cases he
        obtain ⟨op, v, v', hmem, hop⟩ := Postfix.evaluateFrom_error hevaluate
        have hready := hops op (Postfix.rank_ok hrank ▸ Postfix.mem_ofInfix hmem)
        unfold applyOperator at hop
        cases hbasic : setup.system.basic v op.value v' with
        | ok u =>
          rw [hbasic] at hop
          cases hop
        | error f =>
          rw [hbasic] at hop
          cases hop
          exact may_ofFailure hready.1 _ f

theorem strictTokens_obeys (scope : Scope) (tokens : List Token) {P : List Token → Prop}
    (h : ∀ isFunction, P (if setup.strict then Token.splitWords isFunction tokens else tokens)) :
    C.Obeys w a (fun _ ts => P ts) (strictTokens setup scope tokens) := by
  unfold strictTokens
  split
  · next hstrict =>
    simp only [hstrict, if_true] at h
    refine leads_get.bind (fun m _ _ _ => ?_)
    exact (leads_debug 3 _).bind (fun _ _ _ _ => .pure (fun _ _ => h _))
  · next hstrict =>
    simp only [hstrict] at h
    exact .pure (fun _ _ => h (fun _ => false))

theorem withZero_fits {first : Token} (hf : C.Place first.index) {tokens : List Token}
    (ht : WordsFit C fit fitBlock tokens) : WordsFit C fit fitBlock (withZero first tokens) := by
  unfold withZero
  split
  · refine ⟨List.forall_mem_cons.mpr ⟨?_, ht.tokens⟩, nofun⟩
    exact ⟨hf, hf, fun _ => C.stops.zero, nofun, trivial, nofun⟩
  · exact ht

theorem expressionWith_obeys (hp : PartsObey C fit fitBlock p) (calls : Nat) {scope : Scope}
    (hs : C.made w scope) {tokens : List Token} {offset : Int} (ho : C.Place offset)
    (ht : Evaluable C fit fitBlock tokens) :
    C.Obeys w (.quiet scope) Anything (expressionWith setup p calls scope tokens offset) := by
  unfold expressionWith
  dsimp only
  cases hf : tokens.filter (fun t => !t.isNewline) with
  | nil => exact .fail ho _ _
  | cons first rest =>
    dsimp only
    split
    · next hb => exact innerBlock_obeys hp calls hs (ht.block first rest hf hb)
    · next hb =>
      have hwords := fun isFunction =>
        ht.tokens first rest isFunction hf (Bool.not_eq_true _ ▸ hb)
      refine (strictTokens_obeys scope (first :: rest) hwords).bind (fun words w₁ hw₁ hfit => ?_)
      have hzero := withZero_fits (ht.first first rest hf) hfit
      have hs₁ := C.made_mono hw₁ hs
      split
      · next t heq => exact token_obeys hp calls hs₁ (hzero.tokens t (by simp [heq]))
      · exact operation_obeys hp calls hs₁ hzero

end Operations

end Abacus.Conduct
