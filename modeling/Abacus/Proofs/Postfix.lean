import Abacus.Expression.Postfix
import Mathlib.Data.List.Basic

/-! The postfix form of an expression. While it is evaluated every operator finds two values on the
stack, and one value is left at the end. -/

namespace Abacus

namespace Postfix

variable {α : Type}

/-- With `k` values on the stack every operator finds two, and `l` are left at the end. -/
inductive Supplied : Nat → List (Item α) → Nat → Prop where
  | nil (k : Nat) : Supplied k [] k
  | value {k l : Nat} {items : List (Item α)} (v : α) (h : Supplied (k + 1) items l) :
      Supplied k (.value v :: items) l
  | operator {k l : Nat} {items : List (Item α)} (op : Token) (h : Supplied (k + 1) items l) :
      Supplied (k + 2) (.operator op :: items) l

theorem Supplied.append {k l j : Nat} {items items' : List (Item α)} (h : Supplied k items l)
    (h' : Supplied l items' j) : Supplied k (items ++ items') j := by
  induction h with
  | nil k => exact h'
  | value v _ ih => exact .value v (ih h')
  | operator op _ ih => exact .operator op (ih h')

/-- The operators on the stack need one value more than there are of them. -/
theorem supplied_stack (stack : List Ranked) :
    Supplied (stack.length + 1) (stack.map (fun (op, _) => (.operator op : Item α))) 1 := by
  induction stack with
  | nil => exact .nil 1
  | cons e stack ih => exact .operator e.1 ih

theorem unstack_supplied (p : Precedence) (stack : List Ranked) {out : List (Item α)}
    (h : Supplied 0 out.reverse (stack.length + 1)) :
    Supplied 0 (unstack p stack out).2.reverse ((unstack p stack out).1.length + 1) := by
  induction stack generalizing out with
  | nil => exact h
  | cons e stack ih =>
    obtain ⟨op, q⟩ := e
    simp only [unstack]
    split
    · refine ih ?_
      rw [List.reverse_cons]
      exact h.append (.operator op (.nil _))
    · exact h

theorem arrange_supplied (ops : List Ranked) (values : List α) (stack : List Ranked)
    {out : List (Item α)} (h : Supplied 0 out.reverse (stack.length + 1)) :
    Supplied 0 (arrange ops values stack out) 1 := by
  induction ops generalizing values stack out with
  | nil => exact h.append (supplied_stack stack)
  | cons e ops ih =>
    obtain ⟨op, p⟩ := e
    cases values with
    | nil => exact h.append (supplied_stack stack)
    | cons v values =>
      have hnext := unstack_supplied p stack h
      refine ih values _ ?_
      rw [List.reverse_cons]
      exact hnext.append (.value v (.nil _))

theorem ofInfix_supplied (first : α) (values : List α) (ops : List Ranked) :
    Supplied 0 (ofInfix first values ops) 1 :=
  arrange_supplied ops values [] (.value first (.nil 1))

/-- A form that is supplied leaves as many values as it says. -/
theorem Supplied.length_evaluateFrom {ε : Type} {apply : α → Token → α → Except ε α} {k l : Nat}
    {items : List (Item α)} {stack stack' : List α} (h : Supplied k items l)
    (hk : stack.length = k) (he : evaluateFrom apply items stack = .ok stack') :
    stack'.length = l := by
  induction h generalizing stack with
  | nil k =>
    cases he
    exact hk
  | value v _ ih => exact ih (by simp [hk]) he
  | @operator k l items op _ ih =>
    match stack with
    | [] | [_] => simp at hk
    | b :: a :: stack =>
      simp only [evaluateFrom] at he
      cases hc : apply a op b with
      | error e =>
        rw [hc] at he
        cases he
      | ok c =>
        rw [hc] at he
        exact ih (by simpa using hk) he

theorem evaluateFrom_error {ε : Type} {apply : α → Token → α → Except ε α} {e : ε}
    {items : List (Item α)} {stack : List α} (h : evaluateFrom apply items stack = .error e) :
    ∃ op a b, .operator op ∈ items ∧ apply a op b = .error e := by
  fun_induction evaluateFrom apply items stack with
  | case1 => cases h
  | case2 stack v rest ih =>
    obtain ⟨op, a, b, hm, he⟩ := ih h
    exact ⟨op, a, b, List.mem_cons_of_mem _ hm, he⟩
  | case3 op rest b a stack ih =>
    cases hc : apply a op b with
    | error e' =>
      rw [hc] at h
      cases h
      exact ⟨op, a, b, List.mem_cons_self, hc⟩
    | ok c =>
      rw [hc] at h
      obtain ⟨op', a', b', hm, he⟩ := ih c h
      exact ⟨op', a', b', List.mem_cons_of_mem _ hm, he⟩
  | case4 op rest stack _ ih =>
    obtain ⟨op', a, b, hm, he⟩ := ih h
    exact ⟨op', a, b, List.mem_cons_of_mem _ hm, he⟩

theorem mem_unstack {p : Precedence} {stack : List Ranked} {out : List (Item α)} {op : Token} :
    (op ∈ (unstack p stack out).1.map Prod.fst ∨ .operator op ∈ (unstack p stack out).2) →
      op ∈ stack.map Prod.fst ∨ .operator op ∈ out := by
  induction stack generalizing out with
  | nil => exact id
  | cons e stack ih =>
    obtain ⟨o, q⟩ := e
    simp only [unstack]
    split
    · intro h
      rcases ih h with h | h
      · exact .inl (List.mem_cons_of_mem _ h)
      · rcases List.mem_cons.mp h with h | h
        · cases h
          exact .inl List.mem_cons_self
        · exact .inr h
    · exact id

theorem mem_arranged {stack : List Ranked} {out : List (Item α)} {op : Token}
    (h : .operator op ∈ out.reverse ++ stack.map (fun (op, _) => Item.operator op)) :
    op ∈ stack.map Prod.fst ∨ .operator op ∈ out := by
  rcases List.mem_append.mp h with h | h
  · exact .inr (List.mem_reverse.mp h)
  · obtain ⟨e, he, heq⟩ := List.mem_map.mp h
    cases heq
    exact .inl (List.mem_map_of_mem he)

theorem mem_arrange {ops : List Ranked} {values : List α} {stack : List Ranked}
    {out : List (Item α)} {op : Token} (h : .operator op ∈ arrange ops values stack out) :
    op ∈ ops.map Prod.fst ∨ op ∈ stack.map Prod.fst ∨ .operator op ∈ out := by
  induction ops generalizing values stack out with
  | nil => exact .inr (mem_arranged h)
  | cons e ops ih =>
    obtain ⟨o, p⟩ := e
    cases values with
    | nil => exact .inr (mem_arranged h)
    | cons v values =>
      rcases ih h with h | h | h
      · exact .inl (List.mem_cons_of_mem _ h)
      · rcases List.mem_cons.mp h with rfl | h
        · exact .inl List.mem_cons_self
        · exact .inr (mem_unstack (.inl h))
      · rcases List.mem_cons.mp h with h | h
        · cases h
        · exact .inr (mem_unstack (.inr h))

/-- The operators of a postfix form are those it was made from. -/
theorem mem_ofInfix {first : α} {values : List α} {ops : List Ranked} {op : Token}
    (h : .operator op ∈ ofInfix first values ops) : op ∈ ops.map Prod.fst := by
  rcases mem_arrange h with h | h | h
  · exact h
  · cases h
  · simp at h

theorem rank_ok {ops : List Token} {ranked : List Ranked} (h : rank ops = .ok ranked) :
    ranked.map Prod.fst = ops := by
  induction ops generalizing ranked with
  | nil =>
    cases h
    rfl
  | cons op ops ih =>
    unfold rank at h
    split at h
    · cases h
    · cases hr : rank ops with
      | error value =>
        rw [hr] at h
        cases h
      | ok rest =>
        rw [hr] at h
        cases h
        simp [ih hr]

theorem rank_error {ops : List Token} {value : String} (h : rank ops = .error value) :
    ∃ op ∈ ops, op.value = value ∧ Precedence.of? op.value = none := by
  induction ops with
  | nil => cases h
  | cons op ops ih =>
    unfold rank at h
    split at h
    · next hnone =>
      cases h
      exact ⟨op, List.mem_cons_self, rfl, hnone⟩
    · cases hr : rank ops with
      | error value' =>
        rw [hr] at h
        cases h
        obtain ⟨op', hmem, hop⟩ := ih hr
        exact ⟨op', List.mem_cons_of_mem _ hmem, hop⟩
      | ok rest =>
        rw [hr] at h
        cases h

end Postfix

end Abacus
