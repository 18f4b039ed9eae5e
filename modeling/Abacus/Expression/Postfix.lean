import Abacus.Token.Basic

/-! Operator expressions without brackets: their order of evaluation is found by putting them into
postfix form. -/

namespace Abacus

/-- How tight an operator binds, and whether operators of its level group from the right. -/
structure Precedence where
  level : Nat
  rightAssociative : Bool
  deriving DecidableEq

def Precedence.of? (op : String) : Option Precedence :=
  match op with
  | "^" => some ⟨4, true⟩
  | "*" | "/" | "%" => some ⟨3, false⟩
  | "+" | "-" | "~" => some ⟨2, false⟩
  | ">" | "<" | ">=" | "<=" | "==" | "!=" => some ⟨1, false⟩
  | _ => none

/-- Whether an operator that stands before another one is applied first. -/
def Precedence.before (earlier later : Precedence) : Bool :=
  later.level < earlier.level || (earlier.level == later.level && !later.rightAssociative)

namespace Postfix

/-- A value, or an operator that takes the two values before it. -/
inductive Item (α : Type) where
  | value (v : α)
  | operator (op : Token)

variable {α : Type}

abbrev Ranked := Token × Precedence

/-- Moves the operators that are applied before `p` from the stack to the output, which stands in
reverse. -/
def unstack (p : Precedence) : List Ranked → List (Item α) → List Ranked × List (Item α)
  | [], out => ([], out)
  | (op, q) :: stack, out =>
    if q.before p then unstack p stack (.operator op :: out) else ((op, q) :: stack, out)

/-- Puts the operators and the values after them behind the output. -/
def arrange : List Ranked → List α → List Ranked → List (Item α) → List (Item α)
  | (op, p) :: ops, v :: vs, stack, out =>
    let (stack, out) := unstack p stack out
    arrange ops vs ((op, p) :: stack) (.value v :: out)
  | _, _, stack, out => out.reverse ++ stack.map (fun (op, _) => .operator op)

/-- Ranks operators; the first one that has no precedence is refused. -/
def rank : List Token → Except String (List Ranked)
  | [] => .ok []
  | op :: rest =>
    match Precedence.of? op.value with
    | none => .error op.value
    | some p => (rank rest).map ((op, p) :: ·)

/-- The postfix form of `v op v op … v`. -/
def ofInfix (first : α) (values : List α) (ops : List Ranked) : List (Item α) :=
  arrange ops values [] [.value first]

/-- Evaluates a postfix form with a stack, the last value first. -/
def evaluateFrom {ε : Type} (apply : α → Token → α → Except ε α) :
    List (Item α) → List α → Except ε (List α)
  | [], stack => .ok stack
  | .value v :: rest, stack => evaluateFrom apply rest (v :: stack)
  | .operator op :: rest, b :: a :: stack => do
    let c ← apply a op b
    evaluateFrom apply rest (c :: stack)
  | .operator _ :: rest, stack => evaluateFrom apply rest stack

def evaluate {ε : Type} (apply : α → Token → α → Except ε α) (items : List (Item α))
    (default : α) : Except ε α := do
  let stack ← evaluateFrom apply items []
  return stack.getLastD default

end Postfix

end Abacus
