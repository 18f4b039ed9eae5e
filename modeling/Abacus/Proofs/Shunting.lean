import Abacus.Proofs.Postfix
import Abacus.System.Fraction

/-! Operator expressions as trees. Levels and associativity of the operators determine one tree for
the values and the operators between them; the postfix form is the code of that tree, so that its
evaluation on a stack is the evaluation of the tree, left operands first. -/

namespace Abacus

/-- How an operator binds; one without a rank binds less than all that have one. -/
def Token.precedence (op : Token) : Precedence :=
  (Precedence.of? op.value).getD ⟨0, false⟩

/-- Whether `q` may stand in the left operand of `op` without brackets: it binds tighter, or as
tight in a level that groups from the left. -/
def Token.AllowsLeft (op q : Token) : Prop :=
  op.precedence.level < q.precedence.level ∨
    op.precedence.level = q.precedence.level ∧ op.precedence.rightAssociative = false

/-- Whether `q` may stand in the right operand of `op` without brackets: it binds tighter, or as
tight in a level that groups from the right. -/
def Token.AllowsRight (op q : Token) : Prop :=
  op.precedence.level < q.precedence.level ∨
    op.precedence.level = q.precedence.level ∧ op.precedence.rightAssociative = true

inductive Tree (α : Type) where
  | leaf (v : α)
  | node (left : Tree α) (op : Token) (right : Tree α)

namespace Tree

variable {α ε : Type}

def values : Tree α → List α
  | .leaf v => [v]
  | .node l _ r => l.values ++ r.values

def operators : Tree α → List Token
  | .leaf _ => []
  | .node l op r => l.operators ++ op :: r.operators

/-- Every operator takes as operands what its precedence allows. -/
def Groups : Tree α → Prop
  | .leaf _ => True
  | .node l op r => l.Groups ∧ r.Groups ∧ (∀ q ∈ l.operators, op.AllowsLeft q) ∧
      ∀ q ∈ r.operators, op.AllowsRight q

/-- The value of a tree, left operands first. -/
def evaluate (apply : α → Token → α → Except ε α) : Tree α → Except ε α
  | .leaf v => .ok v
  | .node l op r => do
    let a ← l.evaluate apply
    let b ← r.evaluate apply
    apply a op b

/-- The postfix form of a tree. -/
def items : Tree α → List (Postfix.Item α)
  | .leaf v => [.value v]
  | .node l op r => l.items ++ r.items ++ [.operator op]

end Tree

section Precedence

variable {a b c : Token}

theorem Precedence.rightAssociative_of? {op : String} {p : Precedence}
    (h : Precedence.of? op = some p) : p.rightAssociative = (p.level == 4) := by
  unfold Precedence.of? at h
  split at h <;> cases h <;> rfl

/-- A level groups from one side. -/
theorem Token.rightAssociative_eq (op : Token) :
    op.precedence.rightAssociative = (op.precedence.level == 4) := by
  unfold Token.precedence
  cases h : Precedence.of? op.value with
  | none => rfl
  | some p => exact Precedence.rightAssociative_of? h

namespace Token

theorem AllowsLeft.trans (h : a.AllowsLeft b) (h' : b.AllowsLeft c) : a.AllowsLeft c := by
  rcases h with h | ⟨h, hl⟩
  · left
    rcases h' with h' | ⟨h', _⟩ <;> omega
  · rcases h' with h' | ⟨h', _⟩
    · left
      omega
    · exact .inr ⟨h.trans h', hl⟩

theorem AllowsRight.trans (h : a.AllowsRight b) (h' : b.AllowsRight c) : a.AllowsRight c := by
  rcases h with h | ⟨h, hr⟩
  · left
    rcases h' with h' | ⟨h', _⟩ <;> omega
  · rcases h' with h' | ⟨h', _⟩
    · left
      omega
    · exact .inr ⟨h.trans h', hr⟩

/-- Of two operators one cannot be inside the left and the other inside the right operand. -/
theorem AllowsLeft.not_allowsRight (h : a.AllowsLeft b) : ¬ b.AllowsRight a := by
  have ha := a.rightAssociative_eq
  have hb := b.rightAssociative_eq
  rcases h with h | ⟨h, hl⟩
  · rintro (h' | ⟨h', _⟩) <;> omega
  · rintro (h' | ⟨_, hr⟩)
    · omega
    · rw [ha, h, ← hb, hr] at hl
      cases hl

theorem before_eq_true : a.precedence.before b.precedence = true ↔ b.AllowsLeft a := by
  simp only [Precedence.before, AllowsLeft, Bool.or_eq_true, Bool.and_eq_true, decide_eq_true_eq,
    beq_iff_eq, Bool.not_eq_true', @eq_comm _ a.precedence.level]

/-- An operator that is not applied before the next one takes it into its right operand. -/
theorem allowsRight_of_not_before (h : ¬ a.precedence.before b.precedence = true) :
    a.AllowsRight b := by
  have ha := a.rightAssociative_eq
  have hb := b.rightAssociative_eq
  rw [before_eq_true, AllowsLeft, not_or, not_and, Bool.not_eq_false] at h
  rcases Nat.lt_trichotomy a.precedence.level b.precedence.level with hlt | heq | hgt
  · exact .inl hlt
  · exact .inr ⟨heq, by rw [ha, heq, ← hb, h.2 heq.symm]⟩
  · exact absurd hgt h.1

end Token

end Precedence

namespace Tree

variable {α ε : Type}

theorem length_values (t : Tree α) : t.values.length = t.operators.length + 1 := by
  induction t with
  | leaf v => rfl
  | node l op r ihl ihr =>
    simp only [values, operators, List.length_append, List.length_cons, ihl, ihr]
    omega

/-- An operator at the root of one tree and inside the left operand of another would have to bind
both tighter and less tight than the root there. -/
theorem not_inside {op op' : Token} {ls ls' rs rs' : List Token}
    (h : ls ++ op :: rs = ls' ++ op' :: rs') (hr : ∀ q ∈ rs, op.AllowsRight q)
    (hl : ∀ q ∈ ls', op'.AllowsLeft q) : ¬ ls.length < ls'.length := by
  intro hlt
  rcases List.append_eq_append_iff.mp h with ⟨m, rfl, hm⟩ | ⟨m, rfl, _⟩
  · cases m with
    | nil => simp at hlt
    | cons x m =>
      obtain ⟨rfl, rfl⟩ := List.cons.inj hm
      exact (hl op (by simp)).not_allowsRight (hr op' (by simp))
  · simp only [List.length_append] at hlt
    omega

theorem eq_of_groups {t t' : Tree α} (ht : t.Groups) (ht' : t'.Groups)
    (hv : t.values = t'.values) (ho : t.operators = t'.operators) : t = t' := by
  induction t generalizing t' with
  | leaf v =>
    cases t' with
    | leaf w =>
      cases hv
      rfl
    | node l op r => simp [operators] at ho
  | node l op r ihl ihr =>
    cases t' with
    | leaf w => simp [operators] at ho
    | node l' op' r' =>
      obtain ⟨hl, hr, hleft, hright⟩ := ht
      obtain ⟨hl', hr', hleft', hright'⟩ := ht'
      simp only [operators] at ho
      simp only [values] at hv
      have hlength : l.operators.length = l'.operators.length := by
        have h₁ := not_inside ho hright hleft'
        have h₂ := not_inside ho.symm hright' hleft
        omega
      obtain ⟨hol, horest⟩ := List.append_inj ho hlength
      obtain ⟨rfl, hor⟩ := List.cons.inj horest
      obtain ⟨hvl, hvr⟩ := List.append_inj hv (by rw [length_values, length_values, hlength])
      rw [ihl hl hl' hvl hol, ihr hr hr' hvr hor]

end Tree

namespace Postfix

variable {α ε : Type}

/-- A tree's code leaves its value on the stack, or fails as the tree does. -/
theorem evaluateFrom_items (apply : α → Token → α → Except ε α) (t : Tree α)
    (rest : List (Item α)) (stack : List α) :
    evaluateFrom apply (t.items ++ rest) stack =
      (t.evaluate apply).bind (fun v => evaluateFrom apply rest (v :: stack)) := by
  induction t generalizing rest stack with
  | leaf v => rfl
  | node l op r ihl ihr =>
    simp only [Tree.items, Tree.evaluate, List.append_assoc, ihl]
    cases l.evaluate apply with
    | error e => rfl
    | ok a =>
      show evaluateFrom apply (r.items ++ ([.operator op] ++ rest)) (a :: stack) = _
      rw [ihr]
      cases r.evaluate apply with
      | error e => rfl
      | ok b => rfl

/-- The left operands that wait for the right ones, with the operators behind them, the innermost
first. -/
abbrev Spine (α : Type) := List (Tree α × Token)

namespace Spine

def items : Spine α → List (Item α)
  | [] => []
  | (l, _) :: sp => items sp ++ l.items

def values : Spine α → List α
  | [] => []
  | (l, _) :: sp => values sp ++ l.values

def operators : Spine α → List Token
  | [] => []
  | (l, op) :: sp => operators sp ++ (l.operators ++ [op])

/-- The operators of a spine as the stack holds them. -/
def stack (sp : Spine α) : List Ranked :=
  sp.map (fun (_, op) => (op, op.precedence))

/-- Completes the operands whose operators are applied before `op`. -/
def complete (op : Token) : Spine α → Tree α → Spine α × Tree α
  | [], t => ([], t)
  | (l, q) :: sp, t =>
    if q.precedence.before op.precedence then complete op sp (.node l q t) else ((l, q) :: sp, t)

def join : Spine α → Tree α → Tree α
  | [], t => t
  | (l, q) :: sp, t => join sp (.node l q t)

/-- The tree of `t`, what waits for it, and the operators and values behind it. -/
def grow : List Token → List α → Spine α → Tree α → Tree α
  | op :: ops, v :: vs, sp, t =>
    let (sp, t) := complete op sp t
    grow ops vs ((t, op) :: sp) (.leaf v)
  | _, _, sp, t => join sp t

/-- All operators are grouped as they have to be, `later` being those behind the spine. -/
def Groups : Spine α → List Token → Prop
  | [], _ => True
  | (l, op) :: sp, later => l.Groups ∧ (∀ q ∈ l.operators, op.AllowsLeft q) ∧
      (∀ q ∈ later, op.AllowsRight q) ∧ Groups sp (l.operators ++ op :: later)

variable {sp : Spine α} {t : Tree α}

theorem items_join (sp : Spine α) (t : Tree α) :
    (join sp t).items = sp.items ++ t.items ++ sp.stack.map (fun (op, _) => .operator op) := by
  induction sp generalizing t with
  | nil => simp [join, items, stack]
  | cons e sp ih =>
    obtain ⟨l, q⟩ := e
    simp [join, ih, items, Tree.items, stack]

theorem values_join (sp : Spine α) (t : Tree α) : (join sp t).values = sp.values ++ t.values := by
  induction sp generalizing t with
  | nil => rfl
  | cons e sp ih => simp [join, ih, values, Tree.values]

theorem operators_join (sp : Spine α) (t : Tree α) :
    (join sp t).operators = sp.operators ++ t.operators := by
  induction sp generalizing t with
  | nil => rfl
  | cons e sp ih => simp [join, ih, operators, Tree.operators]

theorem groups_join (hsp : sp.Groups t.operators) (ht : t.Groups) : (join sp t).Groups := by
  induction sp generalizing t with
  | nil => exact ht
  | cons e sp ih =>
    obtain ⟨hl, hleft, hright, hrest⟩ := hsp
    exact ih hrest ⟨hl, ht, hleft, hright⟩

/-- Completing operands moves no values and no operators. -/
theorem join_complete (op : Token) (sp : Spine α) (t : Tree α) :
    join (complete op sp t).1 (complete op sp t).2 = join sp t := by
  induction sp generalizing t with
  | nil => rfl
  | cons e sp ih =>
    unfold complete
    split
    · exact ih _
    · rfl

/-- Behind the operands that are completed an operator may follow: what is completed may stand to its
left, and it may stand to the right of what still waits. -/
theorem groups_complete {op : Token} (hsp : sp.Groups t.operators) (ht : t.Groups)
    (hleft : ∀ q ∈ t.operators, op.AllowsLeft q) :
    (complete op sp t).1.Groups (complete op sp t).2.operators ∧ (complete op sp t).2.Groups ∧
      (∀ q ∈ (complete op sp t).2.operators, op.AllowsLeft q) ∧
      ∀ e ∈ (complete op sp t).1.head?, e.2.AllowsRight op := by
  induction sp generalizing t with
  | nil => exact ⟨trivial, ht, hleft, by simp [complete]⟩
  | cons e sp ih =>
    obtain ⟨l, q⟩ := e
    obtain ⟨hl, hlq, hright, hrest⟩ := id hsp
    unfold complete
    split
    · next hbefore =>
      have hq := Token.before_eq_true.mp hbefore
      refine ih hrest ⟨hl, ht, hlq, hright⟩ (fun p hp => ?_)
      rcases List.mem_append.mp hp with hp | hp
      · exact hq.trans (hlq p hp)
      · rcases List.mem_cons.mp hp with rfl | hp
        · exact hq
        · exact hleft p hp
    · next hbefore =>
      refine ⟨hsp, ht, hleft, fun e he => ?_⟩
      cases he
      exact Token.allowsRight_of_not_before hbefore

/-- What may stand to the right of the innermost operator may do so for all of them. -/
theorem Groups.behind {op : Token} {later : List Token} (hsp : sp.Groups later)
    (hop : ∀ e ∈ sp.head?, e.2.AllowsRight op) : sp.Groups (later ++ [op]) := by
  induction sp generalizing later with
  | nil => trivial
  | cons e sp ih =>
    obtain ⟨l, q⟩ := e
    obtain ⟨hl, hlq, hright, hrest⟩ := hsp
    have hq : q.AllowsRight op := hop _ rfl
    refine ⟨hl, hlq, fun p hp => ?_, ?_⟩
    · rcases List.mem_append.mp hp with hp | hp
      · exact hright p hp
      · rw [List.mem_singleton.mp hp]
        exact hq
    · rw [← List.cons_append, ← List.append_assoc]
      refine ih hrest (fun e he => ?_)
      cases sp with
      | nil => cases he
      | cons d sp =>
        cases he
        exact (hrest.2.2.1 q (by simp)).trans hq

theorem groups_grow {ops : List Token} {vs : List α} (hsp : sp.Groups t.operators) (ht : t.Groups)
    (hnone : t.operators = []) : (grow ops vs sp t).Groups := by
  induction ops generalizing vs sp t with
  | nil => exact groups_join hsp ht
  | cons op ops ih =>
    cases vs with
    | nil => exact groups_join hsp ht
    | cons v vs =>
      obtain ⟨hspine, htree, hleft, hhead⟩ :=
        groups_complete hsp ht (show ∀ q ∈ t.operators, op.AllowsLeft q by simp [hnone])
      exact ih ⟨htree, hleft, by simp [Tree.operators], hspine.behind hhead⟩ trivial rfl

theorem values_grow {ops : List Token} {vs : List α} (hl : vs.length = ops.length) (sp : Spine α)
    (t : Tree α) : (grow ops vs sp t).values = sp.values ++ t.values ++ vs := by
  induction ops generalizing vs sp t with
  | nil =>
    obtain rfl := List.length_eq_zero_iff.mp hl
    simp [grow, values_join]
  | cons op ops ih =>
    obtain ⟨v, vs, rfl⟩ := List.exists_cons_of_length_eq_add_one hl
    have hjoin := congrArg Tree.values (join_complete op sp t)
    rw [values_join, values_join] at hjoin
    have hnext := ih (show vs.length = ops.length by simpa using hl)
      (((complete op sp t).2, op) :: (complete op sp t).1) (.leaf v)
    simpa [grow, values, Tree.values, hjoin] using hnext

theorem operators_grow {ops : List Token} {vs : List α} (hl : vs.length = ops.length)
    (sp : Spine α) (t : Tree α) :
    (grow ops vs sp t).operators = sp.operators ++ t.operators ++ ops := by
  induction ops generalizing vs sp t with
  | nil =>
    obtain rfl := List.length_eq_zero_iff.mp hl
    simp [grow, operators_join]
  | cons op ops ih =>
    obtain ⟨v, vs, rfl⟩ := List.exists_cons_of_length_eq_add_one hl
    have hjoin := congrArg Tree.operators (join_complete op sp t)
    rw [operators_join, operators_join] at hjoin
    have hnext := ih (show vs.length = ops.length by simpa using hl)
      (((complete op sp t).2, op) :: (complete op sp t).1) (.leaf v)
    show (grow ops vs (((complete op sp t).2, op) :: (complete op sp t).1) (.leaf v)).operators = _
    rw [hnext, ← hjoin]
    simp [operators, Tree.operators]

end Spine

open Spine

/-- Unstacking operators completes their operands. -/
theorem unstack_eq (op : Token) (sp : Spine α) (t : Tree α) :
    unstack op.precedence sp.stack (sp.items ++ t.items).reverse =
      ((complete op sp t).1.stack,
        ((complete op sp t).1.items ++ (complete op sp t).2.items).reverse) := by
  induction sp generalizing t with
  | nil => rfl
  | cons e sp ih =>
    obtain ⟨l, q⟩ := e
    have hitems : .operator q :: (Spine.items ((l, q) :: sp) ++ t.items).reverse =
        (Spine.items sp ++ (Tree.node l q t).items).reverse := by
      simp [Spine.items, Tree.items]
    simp only [Spine.stack, List.map_cons, unstack, complete]
    split
    · rw [hitems]
      exact ih (.node l q t)
    · rfl

/-- What is put in order is the code of the tree that grows. -/
theorem arrange_eq (ops : List Token) {vs : List α} (sp : Spine α) (t : Tree α) :
    arrange (ops.map (fun op => (op, op.precedence))) vs sp.stack (sp.items ++ t.items).reverse =
      (grow ops vs sp t).items := by
  induction ops generalizing vs sp t with
  | nil =>
    rw [grow, items_join]
    · simp [arrange]
    · nofun
  | cons op ops ih =>
    cases vs with
    | nil =>
      rw [grow, items_join]
      · simp [arrange]
      · nofun
    | cons v vs =>
      have hnext := @ih vs (((complete op sp t).2, op) :: (complete op sp t).1) (.leaf v)
      simp only [List.map_cons, arrange, unstack_eq, grow]
      rw [← hnext]
      simp [Spine.items, Spine.stack, Tree.items]

theorem rank_eq {ops : List Token} (h : ∀ op ∈ ops, (Precedence.of? op.value).isSome = true) :
    rank ops = .ok (ops.map (fun op => (op, op.precedence))) := by
  induction ops with
  | nil => rfl
  | cons op ops ih =>
    obtain ⟨hop, hops⟩ := List.forall_mem_cons.mp h
    obtain ⟨p, hp⟩ := Option.isSome_iff_exists.mp hop
    have hprecedence : op.precedence = p := by simp [Token.precedence, hp]
    simp [rank, hp, ih hops, hprecedence, Except.map]

/-- The tree of an operator expression. -/
def tree (first : α) (values : List α) (ops : List Token) : Tree α :=
  grow ops values [] (.leaf first)

section Tree

variable {first : α} {values : List α} {ops : List Token}

theorem groups_tree (first : α) (values : List α) (ops : List Token) :
    (tree first values ops).Groups :=
  groups_grow trivial trivial rfl

theorem eq_tree_iff (hl : values.length = ops.length) {t : Tree α} :
    t.values = first :: values ∧ t.operators = ops ∧ t.Groups ↔ t = tree first values ops := by
  have hv : (tree first values ops).values = first :: values := values_grow hl [] _
  have ho : (tree first values ops).operators = ops := operators_grow hl [] _
  constructor
  · rintro ⟨htv, hto, ht⟩
    exact Tree.eq_of_groups ht (groups_tree first values ops) (htv.trans hv.symm)
      (hto.trans ho.symm)
  · rintro rfl
    exact ⟨hv, ho, groups_tree first values ops⟩

theorem ofInfix_eq (first : α) (values : List α) (ops : List Token) :
    ofInfix first values (ops.map (fun op => (op, op.precedence))) =
      (tree first values ops).items :=
  arrange_eq ops [] (.leaf first)

theorem evaluateFrom_ofInfix (apply : α → Token → α → Except ε α) (first : α) (values : List α)
    (ops : List Token) :
    evaluateFrom apply (ofInfix first values (ops.map (fun op => (op, op.precedence)))) [] =
      ((tree first values ops).evaluate apply).map (fun v => [v]) := by
  rw [ofInfix_eq, ← List.append_nil (Tree.items _), evaluateFrom_items]
  cases (tree first values ops).evaluate apply <;> rfl

theorem evaluate_ofInfix (apply : α → Token → α → Except ε α) (first : α) (values : List α)
    (ops : List Token) (default : α) :
    evaluate apply (ofInfix first values (ops.map (fun op => (op, op.precedence)))) default =
      (tree first values ops).evaluate apply := by
  unfold evaluate
  rw [evaluateFrom_ofInfix]
  cases (tree first values ops).evaluate apply <;> rfl

end Tree

/-- The postfix form is right. One tree has the given values and operators in their order and groups
them by level and associativity. Whatever the operators do, evaluating the postfix form on a stack
gives the value of that tree, left operands first, or the failure of the same operator; every
operator finds two values on the stack, and one value is left at the end. -/
theorem evaluates_the_tree {first : α} {values : List α} {ops : List Token}
    (hl : values.length = ops.length)
    (hops : ∀ op ∈ ops, (Precedence.of? op.value).isSome = true) :
    ∃ ranked t, rank ops = .ok ranked ∧
      (∀ u : Tree α, u.values = first :: values ∧ u.operators = ops ∧ u.Groups ↔ u = t) ∧
      Supplied 0 (ofInfix first values ranked) 1 ∧
      ∀ {ε : Type} (apply : α → Token → α → Except ε α) (default : α),
        evaluateFrom apply (ofInfix first values ranked) [] =
            (t.evaluate apply).map (fun v => [v]) ∧
          evaluate apply (ofInfix first values ranked) default = t.evaluate apply :=
  ⟨_, tree first values ops, rank_eq hops, fun _ => eq_tree_iff hl,
    ofInfix_supplied first values _,
    fun apply default => ⟨evaluateFrom_ofInfix apply first values ops,
      evaluate_ofInfix apply first values ops default⟩⟩

/-- The operators of `2 ^ 3 ^ 2 - 7 * 8 / 0 < 600 - 1`. -/
def mixedOperators : List Token :=
  ["^", "^", "-", "*", "/", "<", "-"].map (fun op => .leaf .operator op 0 0)

theorem mixedOperators_evaluated :
    let values : List Rat := [3, 2, 7, 8, 0, 600, 1]
    values.length = mixedOperators.length ∧
      (∀ op ∈ mixedOperators, (Precedence.of? op.value).isSome = true) ∧
      ∃ ranked t, rank mixedOperators = .ok ranked ∧
        (∀ u : Tree Rat, u.values = 2 :: values ∧ u.operators = mixedOperators ∧ u.Groups ↔
          u = t) ∧
        Supplied 0 (ofInfix 2 values ranked) 1 ∧
        evaluate (fun a op b => (Fraction.system 20 none).basic a op.value b)
          (ofInfix 2 values ranked) 0 =
          t.evaluate (fun a op b => (Fraction.system 20 none).basic a op.value b) ∧
        t.evaluate (fun a op b => (Fraction.system 20 none).basic a op.value b) =
          .error .divisionByZero := by
  intro values
  have hl : values.length = mixedOperators.length := rfl
  have hops : ∀ op ∈ mixedOperators, (Precedence.of? op.value).isSome = true := by decide
  obtain ⟨ranked, t, hrank, htree, hsupplied, hevaluate⟩ :=
    @evaluates_the_tree Rat 2 values mixedOperators hl hops
  refine ⟨hl, hops, ranked, t, hrank, htree, hsupplied, (hevaluate _ 0).2, ?_⟩
  obtain rfl : tree 2 values mixedOperators = t := (htree _).mp ((eq_tree_iff hl).mpr rfl)
  decide +kernel

end Postfix

end Abacus
