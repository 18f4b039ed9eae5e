import Abacus.Expression.Runs
import Abacus.Expression.Postfix
import Abacus.Machine
import Abacus.Statement.Parse

/-! The value of an expression, given how the expressions and blocks inside it are evaluated. -/

namespace Abacus

/-- How a block ended: at its end, with the last value if there was one, or early. -/
inductive Flow (α : Type) where
  | finished (last : Option α)
  | returned (v : α)
  | left

/-- How the parts of a script are evaluated. The first argument is the number of calls of script
functions that may still be nested. -/
structure Parts (α : Type) where
  expression : Nat → Scope → List Token → Int → Run α α
  block : Nat → Scope → List Statement → Bool → Bool → Run α (Flow α)

namespace Eval

variable {α : Type}

def blockValue (zero : α) : Flow α → α
  | .finished (some v) => v
  | .returned v => v
  | _ => zero

/-- Evaluates a block that stands in an expression, in a scope of its own. -/
def innerBlock (setup : Setup α) (parts : Parts α) (calls : Nat) (scope : Scope)
    (key : Int × Int) (tokens : List Token) : Run α α := do
  let body ← Run.block setup key (Statement.ofTokens setup.source setup.strict tokens)
  let inner ← Run.child scope
  return blockValue setup.system.zero (← parts.block calls inner body false false)

def variableValue (scope : Scope) (t : Token) : Run α α := do
  match ← Run.lookup scope t.value with
  | none => Run.failAt t "Undefined variable."
  | some (.number v _) => return v
  | some _ => Run.failAt t "Cannot use a function as a variable."

/-- A function may be handed over by its name. -/
def argument (parts : Parts α) (calls : Nat) (scope : Scope) (tokens : List Token) :
    Run α (Binding α) := do
  let first := (tokens.head?.map Token.index).getD 0
  match tokens with
  | [t] =>
    let named ← if t.kind = .word then Run.lookup scope t.value else pure none
    match named with
    | some (.builtin name arity) => return .builtin name arity
    | some (.function f) => return .function f
    | _ => return .number (← parts.expression calls scope tokens first) false
  | _ => return .number (← parts.expression calls scope tokens first) false

def arguments (parts : Parts α) (calls : Nat) (scope : Scope) :
    List (List Token) → Run α (List (Binding α))
  | [] => return []
  | tokens :: rest => do
    let b ← argument parts calls scope tokens
    return b :: (← arguments parts calls scope rest)

/-- The numbers among the arguments, if all of them are numbers. -/
def numbers? : List (Binding α) → Option (List α)
  | [] => some []
  | .number v _ :: rest => (numbers? rest).map (v :: ·)
  | _ :: _ => none

def wrongCount (expected got : Nat) : String :=
  "Expected " ++ toString expected ++ " arguments, got " ++ toString got

/-- Runs a built-in function for the token `t`. -/
def applyBuiltin (t : Token) (b : Builtin α) (args : List α) : Run α α := do
  match ← Run.builtin b args with
  | .ok v => return v
  | .error .inputRequired => throw (.input (← get).statement)
  | .error f => Run.ofResult t (.error f)

def callBuiltin (setup : Setup α) (t : Token) (name : String) (arity : Option Nat)
    (args : List (Binding α)) : Run α α := do
  if arity.any (· ≠ args.length) then Run.failAt t (wrongCount (arity.getD 0) args.length)
  match numbers? args, setup.system.builtin? name with
  | some values, some b => applyBuiltin t b values
  | _, _ =>
    Run.failAt t ("Expected the number arguments for the built-in function: " ++ name)

def bindAll (scope : Scope) : List String → List (Binding α) → Run α Unit
  | name :: names, b :: rest => do
    Run.declareIn scope name b
    bindAll scope names rest
  | _, _ => pure ()

/-- The scope of a call, which lies in that of the definition. -/
def callScope (f : Function) (args : List (Binding α)) : Run α Scope := do
  let inner ← Run.child f.scope
  bindAll inner f.parameters args
  return inner

def callFunction (setup : Setup α) (parts : Parts α) (calls : Nat) (t : Token) (f : Function)
    (args : List (Binding α)) : Run α α := do
  if args.length ≠ f.parameters.length then
    Run.failAt t (wrongCount f.parameters.length args.length)
  let inner ← callScope f args
  Run.debug setup 2 (fun _ => "call " ++ f.name)
  match calls with
  | 0 => Run.failAt t "Maximum call depth exceeded."
  | calls + 1 => parts.expression calls inner f.body t.stop

def call (setup : Setup α) (parts : Parts α) (calls : Nat) (scope : Scope) (t name group : Token) :
    Run α α := do
  if name.value = "exit" then Run.failAt t "Exited the program."
  match ← Run.lookup scope name.value with
  | none => Run.failAt name "Undefined function."
  | some (.number ..) => Run.failAt name "Cannot use a numeric variable as a function."
  | some (.builtin builtin arity) =>
    let runs ← Run.ofExcept (Token.splitArguments group.closerIndex group.children)
    callBuiltin setup t builtin arity (← arguments parts calls scope runs)
  | some (.function f) =>
    let runs ← Run.ofExcept (Token.splitArguments group.closerIndex group.children)
    callFunction setup parts calls t f (← arguments parts calls scope runs)

def token (setup : Setup α) (parts : Parts α) (calls : Nat) (scope : Scope) (t : Token) :
    Run α α :=
  if t.kind = .integer ∨ t.kind = .float then
    Run.orStop ((setup.system.parse t.value).mapError Stop.ofLiteral)
  else if t.kind = .word then variableValue scope t
  else match t with
    | .call _ _ _ _ name group => call setup parts calls scope t name group
    | .group _ _ index stop children opener _ =>
      if opener.value = "(" then parts.expression calls scope children index
      else innerBlock setup parts calls scope (index, stop) children
    | .leaf kind .. =>
      if kind = .operator then Run.failAt t "Unexpected operator."
      else Run.failAt t "Unexpected symbol."

/-- The factorial of a value, for the token `t` behind it. -/
def factorial (setup : Setup α) (t : Token) (v : α) : Run α α := do
  match setup.system.builtin? "fac" with
  | some b =>
    match ← Run.builtin b [v] with
    | .ok w => return w
    | .error .inputRequired => throw (.input "")
    | .error f => Run.ofResult t (.error f)
  | none => throw (.defect .noOperand)

/-- The values and the operators between them. Both lists of what was found so far stand in
reverse, a value being expected next when there are as many values as operators. Values without an
operator between them are multiplied. -/
def operands (setup : Setup α) (parts : Parts α) (calls : Nat) (scope : Scope) :
    List Token → List α → List Token → Bool → Run α (List α × List Token)
  | [], values, ops, false => return (values.reverse, ops.reverse)
  | [], _, ops, true =>
    match ops with
    | op :: _ => Run.failAt op "Expected an expression after the operator."
    | [] => throw (.defect .noOperand)
  | t :: rest, values, ops, expectsValue => do
    if t.isValue then
      let ops := if expectsValue then ops else .leaf .operator "*" t.index t.index :: ops
      let v ← token setup parts calls scope t
      operands setup parts calls scope rest (v :: values) ops false
    else if t.kind = .operator then
      if expectsValue then Run.failAt t "Unexpected operator."
      else if t.value = "!" then
        match values with
        | v :: values =>
          let w ← factorial setup t v
          operands setup parts calls scope rest (w :: values) ops false
        | [] => throw (.defect .noOperand)
      else operands setup parts calls scope rest values (t :: ops) true
    else Run.failAt t "Unexpected symbol."

/-- A fault of an operator covers its text, and one character at least. -/
def applyOperator (setup : Setup α) (a : α) (op : Token) (b : α) : Except Stop α :=
  (setup.system.basic a op.value b).mapError (Stop.ofFailure op.index (max op.length 1))

def operation (setup : Setup α) (parts : Parts α) (calls : Nat) (scope : Scope)
    (tokens : List Token) : Run α α := do
  match ← operands setup parts calls scope tokens [] [] true with
  | (first :: values, ops) =>
    match Postfix.rank ops with
    | .error op => throw (.defect (.operator op))
    | .ok ops =>
      Run.orStop (Postfix.evaluate (applyOperator setup) (Postfix.ofInfix first values ops) first)
  | ([], _) => throw (.defect .noOperand)

def strictTokens (setup : Setup α) (scope : Scope) (tokens : List Token) : Run α (List Token) := do
  if setup.strict then
    let frames := (← get).frames
    let isFunction (name : String) : Bool := (frames.get scope name).any Binding.isFunction
    let tokens := Token.splitWords isFunction tokens
    Run.debug setup 3 (fun _ => "strict rewrite: " ++ " ".intercalate (tokens.map Token.value))
    return tokens
  else return tokens

/-- A leading sign stands behind a zero. -/
def withZero (first : Token) (tokens : List Token) : List Token :=
  if first.kind = .operator ∧ (first.value = "+" ∨ first.value = "-") then
    .leaf .integer "0" first.index first.index :: tokens
  else tokens

/-- An expression that starts with one of these words is a block. -/
def startsBlock (t : Token) : Bool :=
  t.is .word "if" || t.is .word "repeat" || t.is .word "loop"

def expressionWith (setup : Setup α) (parts : Parts α) (calls : Nat) (scope : Scope)
    (tokens : List Token) (offset : Int) : Run α α := do
  let tokens := tokens.filter (fun t => !t.isNewline)
  match tokens with
  | [] => Run.fail offset "Empty expression." 2
  | first :: _ =>
    if startsBlock first then
      innerBlock setup parts calls scope (first.index, Token.stopOf tokens first.stop) tokens
    else
      let tokens ← strictTokens setup scope tokens
      match withZero first tokens with
      | [t] => token setup parts calls scope t
      | tokens => operation setup parts calls scope tokens

end Eval

end Abacus
