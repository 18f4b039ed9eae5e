import Abacus.Proofs.Rendered.Heads
import Abacus.Proofs.Rendered.Steps
import Abacus.Proofs.Simulation.Expression

/-! Expressions of two renderings, given that the expressions and blocks inside them end alike. -/

namespace Abacus.Rendering

open Token Statement Eval

variable {α : Type} {R : Rendering} {p q : Parts α} {s : NumberSystem α} {o : Options}
  {t t' : Token} {T T' : List Token}

/-- Every block is read like the one that corresponds to it. -/
def Reads (R : Rendering) : Prop :=
  ∀ {C C'}, R.Blocks C C' → R.SameReading C C'

def left (R : Rendering) (s : NumberSystem α) (o : Options) : Setup α :=
  ⟨s, R.source, R.strict, o.debugLevel, o.callLimit, o.digitLimit, false, false⟩

def right (R : Rendering) (s : NumberSystem α) (o : Options) : Setup α :=
  ⟨s, R.source', R.strict, o.debugLevel, o.callLimit, o.digitLimit, false, false⟩

structure PartsAlike (R : Rendering) (p q : Parts α) : Prop where
  expression : ∀ calls scope {T T' : List Token} (i i' : Int), R.Runs T T' →
    R.Simulates Eq (p.expression calls scope T i) (q.expression calls scope T' i')
  block : ∀ calls scope {B B' : List Statement} top report, List.Forall₂ R.Says B B' →
    R.Simulates Eq (p.block calls scope B top report) (q.block calls scope B' top report)

section Calls

theorem innerBlock_like (hr : R.Reads) (hp : R.PartsAlike p q) (calls : Nat) (scope : Scope)
    (key key' : Int × Int) (hT : R.Blocks T T') :
    R.Simulates Eq (innerBlock (R.left s o) p calls scope key T)
      (innerBlock (R.right s o) q calls scope key' T') := by
  refine (block_like rfl rfl key key' (hr hT)).bind (fun B B' hB => ?_)
  refine (child_like scope).bind ?_
  rintro inner _ rfl
  refine (hp.block calls inner false false hB).bind ?_
  rintro flow _ rfl
  exact .done _

theorem variableValue_like (scope : Scope) (h : t.value = t'.value) :
    R.Simulates Eq (variableValue scope t : Run α α) (variableValue scope t') := by
  unfold variableValue
  rw [h]
  refine (lookup_like scope t'.value).bind (fun x y hx => ?_)
  cases hx with
  | none => exact .failAt _ _ _ _
  | some hb =>
    cases hb with
    | number v constant => exact .done v
    | builtin name arity => exact .failAt _ _ _ _
    | function hb => exact .failAt _ _ _ _

theorem argument_like (hp : R.PartsAlike p q) (calls : Nat) (scope : Scope)
    (hT : R.Spoken T T') :
    R.Simulates R.Alike (argument p calls scope T) (argument q calls scope T') := by
  have hnumber : ∀ i i' : Int, R.Simulates R.Alike
      (do return .number (← p.expression calls scope T i) false)
      (do return .number (← q.expression calls scope T' i') false) := by
    intro i i'
    refine (hp.expression calls scope i i' hT.runs).bind ?_
    rintro v _ rfl
    exact .pure (.number v false)
  rcases hT with hT | hT
  case inr =>
    cases hT
    exact hnumber _ _
  cases hT with
  | nil => exact hnumber _ _
  | @cons t t' U U' ht hU =>
    cases hU with
    | cons hu hU => exact hnumber _ _
    | nil =>
      unfold argument
      dsimp only
      rw [← ht.kind_eq]
      by_cases hk : t.kind = .word
      · rw [if_pos hk, if_pos hk, ← ht.value_of_kind (by simp [hk]) (by simp [hk])]
        refine (lookup_like scope t.value).bind (fun x y hx => ?_)
        cases hx with
        | none => exact hnumber _ _
        | some hb =>
          cases hb with
          | number v constant => exact hnumber _ _
          | builtin name arity => exact .pure (.builtin name arity)
          | function hb => exact .pure (.function hb)
      · rw [if_neg hk, if_neg hk]
        exact hnumber _ _

theorem arguments_like (hp : R.PartsAlike p q) (calls : Nat) (scope : Scope)
    {A A' : List (List Token)} (hA : List.Forall₂ R.Spoken A A') :
    R.Simulates (List.Forall₂ R.Alike) (arguments p calls scope A) (arguments q calls scope A') := by
  induction hA with
  | nil => exact .pure .nil
  | cons hrun _ ih =>
    refine (argument_like hp calls scope hrun).bind (fun x y hx => ?_)
    exact ih.bind (fun xs ys hxs => .pure (.cons hx hxs))

theorem numbers_eq {xs ys : List (Binding α)} (h : List.Forall₂ R.Alike xs ys) :
    numbers? xs = numbers? ys := by
  induction h with
  | nil => rfl
  | cons hx _ ih =>
    cases hx with
    | number v constant => simp only [numbers?, ih]
    | builtin name arity => rfl
    | function hb => rfl

/-- A built-in function is run on both sides with the same arguments. -/
theorem builtin_like {x y : Run α α} (b : Builtin α) (vs : List α) (prompt : Machine α → String)
    (t t' : Token)
    (hx : ∀ m, x m = match b.run vs m.resources with
      | .ok v r => .ok v { m with resources := r }
      | .error .inputRequired r => .error (.input (prompt m)) { m with resources := r }
      | .error f r =>
        .error (.fault (t.fault (Text.capitalized f.message))) { m with resources := r })
    (hy : ∀ m, y m = match b.run vs m.resources with
      | .ok v r => .ok v { m with resources := r }
      | .error .inputRequired r => .error (.input (prompt m)) { m with resources := r }
      | .error f r =>
        .error (.fault (t'.fault (Text.capitalized f.message))) { m with resources := r }) :
    R.Simulates Eq x y := by
  intro m n hm
  rw [hx, hy, hm.resources]
  cases b.run vs n.resources with
  | ok v r => exact .ok rfl { hm with resources := rfl }
  | error f r =>
    cases f with
    | inputRequired => exact .error (.input _ _) hm.records
    | _ => exact .error (.fault _ _) hm.records

theorem callBuiltin_like (t t' : Token) (name : String) (arity : Option Nat)
    {xs ys : List (Binding α)} (hxs : List.Forall₂ R.Alike xs ys) :
    R.Simulates Eq (callBuiltin (R.left s o) t name arity xs)
      (callBuiltin (R.right s o) t' name arity ys) := by
  unfold callBuiltin
  simp only [hxs.length_eq, numbers_eq hxs, left, right]
  split
  · exact .failAt _ _ _ _
  · cases numbers? ys with
    | none => exact .failAt _ _ _ _
    | some vs =>
      cases s.builtin? name with
      | none => exact .failAt _ _ _ _
      | some b =>
        exact builtin_like b vs Machine.statement t t'
          (Simulation.applyBuiltin_eq t b vs) (Simulation.applyBuiltin_eq t' b vs)

theorem bindAll_like (scope : Scope) (names : List String) {xs ys : List (Binding α)}
    (hxs : List.Forall₂ R.Alike xs ys) :
    R.Simulates Eq (bindAll scope names xs) (bindAll scope names ys) := by
  induction names generalizing xs ys with
  | nil => exact .done ()
  | cons name names ih =>
    cases hxs with
    | nil => exact .done ()
    | cons hx hxs => exact (declareIn_like scope name hx).bind (fun _ _ _ => ih hxs)

theorem callFunction_like (hp : R.PartsAlike p q) (calls : Nat) (t t' : Token) {name : String}
    {parameters : List String} {body body' : List Token} (scope : Scope)
    (hb : R.Runs body body') {xs ys : List (Binding α)} (hxs : List.Forall₂ R.Alike xs ys) :
    R.Simulates Eq (callFunction (R.left s o) p calls t ⟨name, parameters, body, scope⟩ xs)
      (callFunction (R.right s o) q calls t' ⟨name, parameters, body', scope⟩ ys) := by
  have hscope : R.Simulates Eq (callScope ⟨name, parameters, body, scope⟩ xs)
      (callScope ⟨name, parameters, body', scope⟩ ys) := by
    refine (child_like scope).bind ?_
    rintro inner _ rfl
    exact (bindAll_like inner parameters hxs).bind (fun _ _ _ => .done inner)
  unfold callFunction
  simp only [hxs.length_eq]
  split
  · exact .failAt _ _ _ _
  · refine hscope.bind ?_
    rintro inner _ rfl
    refine (debug_like (R.left s o) (R.right s o) 2 _ _).bind (fun _ _ _ => ?_)
    cases calls with
    | zero => exact .failAt _ _ _ _
    | succ calls => exact hp.expression calls inner _ _ hb

theorem call_like (hp : R.PartsAlike p q) (calls : Nat) (scope : Scope) (t t' : Token)
    {n n' a a' : Token} (hn : n.value = n'.value) (ha : R.Listed a.children a'.children) :
    R.Simulates Eq (Eval.call (R.left s o) p calls scope t n a)
      (Eval.call (R.right s o) q calls scope t' n' a') := by
  -- the arguments come before the function is applied, whatever it is
  have hargs : ∀ {x y : List (Binding α) → Run α α},
      (∀ xs ys, List.Forall₂ R.Alike xs ys → R.Simulates Eq (x xs) (y ys)) →
      R.Simulates Eq
        (do
          let runs ← Run.ofExcept (splitArguments a.closerIndex a.children)
          x (← arguments p calls scope runs))
        (do
          let runs ← Run.ofExcept (splitArguments a'.closerIndex a'.children)
          y (← arguments q calls scope runs)) := by
    intro x y hxy
    refine Simulates.bind (.ofExcept (ha.splitArguments _ _)) (fun A A' hA => ?_)
    exact (arguments_like hp calls scope hA).bind hxy
  unfold Eval.call
  dsimp only
  rw [hn]
  split
  · exact .failAt _ _ _ _
  · refine (lookup_like scope n'.value).bind (fun x y hx => ?_)
    cases hx with
    | none => exact .failAt _ _ _ _
    | some hb =>
      cases hb with
      | number v constant => exact .failAt _ _ _ _
      | builtin name arity => exact hargs (fun _ _ hxs => callBuiltin_like t t' name arity hxs)
      | function hb => exact hargs (fun _ _ hxs => callFunction_like hp calls t t' _ hb hxs)

end Calls

section Operations

theorem token_like (hr : R.Reads) (hp : R.PartsAlike p q) (calls : Nat) (scope : Scope)
    (h : R.Met t t') :
    R.Simulates Eq (token (R.left s o) p calls scope t) (token (R.right s o) q calls scope t') := by
  cases h with
  | @leaf kind value i i' j j' =>
    by_cases hnumber : kind = .integer ∨ kind = .float
    · rw [Likeness.token_number (t := .leaf kind value i j) hnumber,
        Likeness.token_number (t := .leaf kind value i' j') hnumber]
      simp only [left, right, Token.value]
      cases s.parse value with
      | ok v => exact .done v
      | error f => exact .stop (.ofLiteral f)
    · by_cases hword : kind = .word
      · rw [Likeness.token_word (t := .leaf kind value i j) hword,
          Likeness.token_word (t := .leaf kind value i' j') hword]
        exact variableValue_like scope rfl
      · rw [Likeness.token_symbol hnumber hword, Likeness.token_symbol hnumber hword]
        split <;> exact .failAt _ _ _ _
  | parentheses ho ho' hC =>
    unfold token
    dsimp only [Token.kind]
    simp only [reduceCtorEq, or_self, if_false, ho, ho', if_true]
    exact hp.expression calls scope _ _ (runs_of_unbroken hC)
  | braces ho ho' hC =>
    have hne : ("\x7b" : String) ≠ "(" := by decide
    unfold token
    dsimp only [Token.kind]
    simp only [reduceCtorEq, or_self, if_false, ho, ho', hne]
    exact innerBlock_like hr hp calls scope _ _ hC
  | call hn ha => exact call_like hp calls scope _ _ hn ha

theorem factorial_like (t t' : Token) (v : α) :
    R.Simulates Eq (factorial (R.left s o) t v) (factorial (R.right s o) t' v) := by
  cases hx : s.builtin? "fac" with
  | none =>
    simp only [factorial, left, right, hx]
    exact .stop (.defect _)
  | some b =>
    exact builtin_like b [v] (fun _ => "") t t'
      (Simulation.factorial_eq (R.left s o) hx t v) (Simulation.factorial_eq (R.right s o) hx t' v)

/-- Operators with one text. -/
def Sign (op op' : Token) : Prop :=
  op.value = op'.value

theorem applyOperator_like {op op' : Token} (h : Sign op op') (v w : α) :
    SameResult Stops Eq (applyOperator (R.left s o) v op w)
      (applyOperator (R.right s o) v op' w) := by
  simp only [applyOperator, left, right, show op.value = op'.value from h]
  cases s.basic v op'.value w with
  | ok c => exact .ok rfl
  | error f => exact .error (.ofFailure _ _ _ _ f)

theorem rank_like {ops ops' : List Token} (h : List.Forall₂ Sign ops ops') :
    SameResult Eq (List.Forall₂ (Simulation.RankedRelated Sign)) (Postfix.rank ops)
      (Postfix.rank ops') := by
  induction h with
  | nil => exact .ok .nil
  | @cons op op' ops ops' hop _ ih =>
    simp only [Postfix.rank, show op.value = op'.value from hop]
    cases Precedence.of? op'.value with
    | none => exact .error rfl
    | some r =>
      dsimp only
      generalize Postfix.rank ops = x at ih ⊢
      generalize Postfix.rank ops' = y at ih ⊢
      cases ih with
      | ok hr => exact .ok (.cons ⟨hop, rfl⟩ hr)
      | error he => exact .error he

/-- The same values, and operators with the same texts between them. -/
def SameOperands (x y : List α × List Token) : Prop :=
  x.1 = y.1 ∧ List.Forall₂ Sign x.2 y.2

theorem operands_like (hr : R.Reads) (hp : R.PartsAlike p q) (calls : Nat) (scope : Scope)
    (h : R.Mets T T') (vs : List α) {ops ops' : List Token} (ho : List.Forall₂ Sign ops ops')
    (expects : Bool) :
    R.Simulates SameOperands (operands (R.left s o) p calls scope T vs ops expects)
      (operands (R.right s o) q calls scope T' vs ops' expects) := by
  induction h generalizing vs ops ops' expects with
  | nil =>
    cases expects with
    | false => exact .pure ⟨rfl, List.rel_reverse ho⟩
    | true =>
      cases ho with
      | nil => exact .stop (.defect _)
      | cons hop _ => exact .failAt _ _ _ _
  | @cons t t' T T' h _ ih =>
    unfold operands
    dsimp only
    rw [← h.isValue_eq, ← h.kind_eq]
    by_cases hv : t.isValue = true
    · rw [if_pos hv, if_pos hv]
      refine (token_like hr hp calls scope h).bind ?_
      rintro v _ rfl
      refine ih _ ?_ false
      cases expects with
      | true => exact ho
      | false => exact .cons rfl ho
    · rw [if_neg hv, if_neg hv]
      by_cases hk : t.kind = .operator
      · have hvalue := h.value_of_kind (by simp [hk]) (by simp [hk])
        rw [if_pos hk, if_pos hk, ← hvalue]
        cases expects with
        | true => exact .failAt _ _ _ _
        | false =>
          simp only [Bool.false_eq_true, if_false]
          by_cases hbang : t.value = "!"
          · rw [if_pos hbang, if_pos hbang]
            cases vs with
            | nil => exact .stop (.defect _)
            | cons v vs =>
              refine (factorial_like t t' v).bind ?_
              rintro w _ rfl
              exact ih _ ho false
          · rw [if_neg hbang, if_neg hbang]
            exact ih _ (.cons hvalue ho) true
      · rw [if_neg hk, if_neg hk]
        exact .failAt _ _ _ _

theorem operation_like (hr : R.Reads) (hp : R.PartsAlike p q) (calls : Nat) (scope : Scope)
    (h : R.Mets T T') :
    R.Simulates Eq (operation (R.left s o) p calls scope T)
      (operation (R.right s o) q calls scope T') := by
  refine (operands_like hr hp calls scope h [] .nil true).bind ?_
  rintro ⟨vs, ops⟩ ⟨_, ops'⟩ ⟨rfl, ho⟩
  cases vs with
  | nil => exact .stop (.defect _)
  | cons v vs =>
    have hrank := rank_like ho
    dsimp only
    generalize Postfix.rank ops = x at hrank ⊢
    generalize Postfix.rank ops' = y at hrank ⊢
    cases hrank with
    | error he =>
      cases he
      exact .stop (.defect _)
    | ok ho =>
      have hvs : List.Forall₂ (Eq : α → α → Prop) vs vs := List.forall₂_same.mpr (fun _ _ => rfl)
      refine .orStop (Simulation.evaluate_related ?_ ho rfl hvs)
      rintro v _ w _ op op' hop rfl rfl
      exact applyOperator_like hop v w

theorem withZero_like (h : R.Met t t') (hT : R.Mets T T') :
    R.Mets (withZero t T) (withZero t' T') := by
  unfold withZero
  rw [← h.kind_eq]
  by_cases hk : t.kind = .operator
  · rw [← h.value_of_kind (by simp [hk]) (by simp [hk])]
    split
    · exact .cons .leaf hT
    · exact hT
  · rw [if_neg (fun hh => hk hh.1), if_neg (fun hh => hk hh.1)]
    exact hT

theorem strictTokens_like (scope : Scope) (hT : R.Mets T T')
    (hs : R.strict = true → ∀ isFunction, R.Mets (splitWords isFunction T)
      (splitWords isFunction T')) :
    R.Simulates R.Mets (strictTokens (R.left s o) scope T)
      (strictTokens (R.right s o) scope T') := by
  unfold strictTokens
  cases hmode : R.strict with
  | false =>
    simp only [left, right, hmode, Bool.false_eq_true, if_false]
    exact .pure hT
  | true =>
    simp only [left, right, hmode, if_true]
    intro m n hm
    have hsplit := hs hmode (fun name => (m.frames.get scope name).any Binding.isFunction)
    have hsteps : R.Simulates R.Mets
        (do
          Run.debug (R.left s o) 3 (fun _ => "strict rewrite: " ++ " ".intercalate
            ((splitWords (fun name => (m.frames.get scope name).any Binding.isFunction) T).map
              Token.value))
          return splitWords (fun name => (m.frames.get scope name).any Binding.isFunction) T)
        (do
          Run.debug (R.right s o) 3 (fun _ => "strict rewrite: " ++ " ".intercalate
            ((splitWords (fun name => (n.frames.get scope name).any Binding.isFunction) T').map
              Token.value))
          return splitWords (fun name => (n.frames.get scope name).any Binding.isFunction) T') := by
      rw [hm.isFunction_eq scope]
      exact (debug_like _ _ 3 _ _).bind (fun _ _ _ => .pure hsplit)
    have hends := hsteps m n hm
    simp only [left, right, hmode] at hends
    exact hends

theorem expressionWith_like (hr : R.Reads) (hp : R.PartsAlike p q) (calls : Nat) (scope : Scope)
    (i i' : Int) (hT : R.Runs T T') :
    R.Simulates Eq (expressionWith (R.left s o) p calls scope T i)
      (expressionWith (R.right s o) q calls scope T' i') := by
  unfold expressionWith
  dsimp only
  cases hT with
  | empty h h' =>
    rw [h, h']
    exact .fail _ _ _ _ _ _
  | block h h' hb hb' hB =>
    rw [h, h']
    dsimp only
    rw [if_pos hb, if_pos hb']
    exact innerBlock_like hr hp calls scope _ _ hB
  | tokens h h' hb hb' ht hS hs =>
    rw [h, h']
    dsimp only
    rw [if_neg (Bool.eq_false_iff.mp hb), if_neg (Bool.eq_false_iff.mp hb')]
    refine (strictTokens_like scope hS hs).bind (fun U U' hU => ?_)
    have hzero := withZero_like ht hU
    generalize withZero _ U = X at hzero ⊢
    generalize withZero _ U' = Y at hzero ⊢
    cases hzero with
    | nil => exact operation_like hr hp calls scope .nil
    | cons h hX =>
      cases hX with
      | nil => exact token_like hr hp calls scope h
      | cons hu hX => exact operation_like hr hp calls scope (.cons h (.cons hu hX))

end Operations

end Abacus.Rendering
