import Abacus.Eval.Expression

/-! The effect of a statement, given how the expressions and blocks inside it are evaluated, and the
run of a script. The fuel bounds how deep expressions and blocks are nested at run time and how often
a loop turns; a run that ends with some fuel ends in the same way with more. -/

namespace Abacus.Eval

variable {α : Type}

/-- In strict mode a name has one character. -/
def checkName (setup : Setup α) (name : Token) : Run α Unit :=
  if setup.strict && name.value.length != 1 then
    Run.failAt name "Expected a one-character variable name in strict mode."
  else pure ()

/-- A constant cannot be declared again, nor a variable of the same scope as a constant. -/
def checkAssign (scope : Scope) (name : Token) (constant : Bool) (valueSource : String) :
    Option (Nat × Binding α) → Run α Unit
  | none => pure ()
  | some (owner, b) => do
    if b.isConstant then
      if name.value = "π" then Run.failAt name ("π ≠ " ++ valueSource)
      else Run.failAt name "Cannot redeclare constants."
    if constant && scope.head? == some owner then
      Run.failAt name "Cannot redeclare a variable as a constant."

/-- A name that is already bound keeps its scope unless the declaration is new. -/
def assign (setup : Setup α) (parts : Parts α) (calls : Nat) (scope : Scope) (top : Bool)
    (s : Statement) (name : Token) (value : List Token) (fresh constant : Bool)
    (valueSource : String) : Run α Unit := do
  checkName setup name
  let found ← Run.find scope name.value
  checkAssign scope name constant valueSource found
  let v ← parts.expression calls scope value name.stop
  match found, fresh with
  | some (owner, _), false => Run.declare owner name.value (.number v false)
  | _, _ => Run.declareIn scope name.value (.number v constant)
  Run.debugText setup 2 (fun _ =>
    (setup.system.format v).map ("declare " ++ name.value ++ " = " ++ ·))
  if top then Run.record s [.label name.value, .label "is set to", .value v]

def define (setup : Setup α) (scope : Scope) (top : Bool) (s : Statement) (name : Token)
    (parameters : List String) (value : List Token) (valueSource : String) : Run α Unit := do
  checkName setup name
  let found ← Run.find scope name.value
  if found.any (fun (_, b) => b.isConstant) then Run.failAt name "Cannot redeclare constants."
  let function : Binding α := .function ⟨name.value, parameters, value, scope⟩
  match found with
  | some (owner, _) => Run.declare owner name.value function
  | none => Run.declareIn scope name.value function
  let signature := name.value ++ "(" ++ ", ".intercalate parameters ++ ")"
  Run.debug setup 2 (fun _ => "define function " ++ signature)
  if top then Run.record s [.label signature, .label "is set to", .label valueSource]

def condition (setup : Setup α) (parts : Parts α) (calls : Nat) (scope : Scope) (s : Statement)
    (keyword : Token) (tokens : List Token) (conditionSource : String) : Run α Bool := do
  let v ← parts.expression calls scope tokens keyword.stop
  let holds := setup.system.isTrue v
  Run.debug setup 3 (fun _ => s.kind.label ++ " condition " ++ conditionSource ++ " -> " ++
    if holds then "True" else "False")
  return holds

/-- Runs a block in a new scope inside `scope`. -/
def inChild (parts : Parts α) (calls : Nat) (scope : Scope) (report : Bool)
    (body : List Statement) : Run α (Flow α) := do
  let inner ← Run.child scope
  parts.block calls inner body false report

def loop (parts : Parts α) (calls : Nat) (scope : Scope) (report : Bool) (body : List Statement) :
    Nat → Run α (Flow α)
  | 0 => throw (.defect .outOfFuel)
  | fuel + 1 => do
    match ← inChild parts calls scope report body with
    | .left => return .finished none
    | .returned v => return .returned v
    | .finished _ => loop parts calls scope report body fuel

def loopUntil (parts : Parts α) (calls : Nat) (scope : Scope) (report : Bool)
    (body : List Statement) (holds : Run α Bool) : Nat → Run α (Flow α)
  | 0 => throw (.defect .outOfFuel)
  | fuel + 1 => do
    if ← holds then return .finished none
    else
      match ← inChild parts calls scope report body with
      | .left => return .finished none
      | .returned v => return .returned v
      | .finished _ => loopUntil parts calls scope report body holds fuel

/-- The scope of one turn of a counted loop; a counter is a constant around the block. -/
def turnScope (setup : Setup α) (scope : Scope) (counter : Option Token) (turn : Nat) :
    Run α Scope := do
  match counter with
  | none => return scope
  | some name =>
    let outer ← Run.child scope
    Run.declareIn outer name.value (.number (setup.system.fromInt turn) true)
    return outer

def turnLine (setup : Setup α) (turn count : Nat) : Except Failure String := do
  let turn ← integerText setup.digitLimit turn
  let count ← integerText setup.digitLimit count
  return "repeat iteration " ++ turn ++ " of " ++ count

/-- Runs a block `left` more times, `turn` of them being done. -/
def turns (setup : Setup α) (parts : Parts α) (calls : Nat) (scope : Scope) (report : Bool)
    (counter : Option Token) (count : Nat) (body : List Statement) :
    Nat → Nat → Run α (Flow α)
  | 0, _ => return .finished none
  | left + 1, turn => do
    Run.debugText setup 3 (fun _ => turnLine setup (turn + 1) count)
    let outer ← turnScope setup scope counter (turn + 1)
    match ← inChild parts calls outer report body with
    | .left => return .finished none
    | .returned v => return .returned v
    | .finished _ => turns setup parts calls scope report counter count body left (turn + 1)

def checkCounter (setup : Setup α) (scope : Scope) : Option Token → Run α Unit
  | none => pure ()
  | some name => do
    checkName setup name
    let found ← Run.find scope name.value
    if found.any (fun (_, b) => b.isConstant) then Run.failAt name "Cannot redeclare constants."

def counted (setup : Setup α) (parts : Parts α) (calls : Nat) (scope : Scope) (top report : Bool)
    (s : Statement) (keyword : Token) (amount : List Token) (counter : Option Token)
    (body : List Statement) : Run α (Flow α) := do
  let v ← parts.expression calls scope amount keyword.stop
  if top then Run.record s [.label "a repeat loop will continue", .value v, .label "times"]
  let count ← Run.ofResult keyword (setup.system.toCount v)
  checkCounter setup scope counter
  turns setup parts calls scope report counter count.toNat body count.toNat 0

/-- Runs a statement that is no part of a chain of conditions. -/
def statement (setup : Setup α) (parts : Parts α) (fuel calls : Nat) (scope : Scope)
    (top report : Bool) (s : Statement) : Run α (Flow α) := do
  Run.debug setup 1 (fun _ => s.kind.label ++ ": " ++ s.source)
  match s with
  | .assign _ name value fresh constant valueSource =>
    assign setup parts calls scope top s name value fresh constant valueSource
    return .finished none
  | .define _ name parameters value valueSource =>
    define setup scope top s name parameters value valueSource
    return .finished none
  | .inline origin value =>
    let v ← parts.expression calls scope value origin.index
    if report then Run.record s [.value v]
    return .finished (some v)
  | .loop _ _ body =>
    if top then Run.record s [.label "loop"]
    loop parts calls scope report body fuel
  | .repeatUntil _ keyword tokens body conditionSource =>
    if top then
      Run.record s [.label "a repeat loop will continue until", .label conditionSource]
    loopUntil parts calls scope report body
      (condition setup parts calls scope s keyword tokens conditionSource) fuel
  | .repeatTimes _ keyword amount body _ =>
    counted setup parts calls scope top report s keyword amount none body
  | .repeatWith _ keyword amount counter body _ =>
    counted setup parts calls scope top report s keyword amount (some counter) body
  | .giveBack _ keyword value =>
    if value.isEmpty then return .returned setup.system.zero
    else return .returned (← parts.expression calls scope value keyword.stop)
  | .leave .. => return .left
  | .print _ _ text =>
    Run.record s [.label text]
    return .finished none
  | .throw origin _ text =>
    Run.fail origin.index (if text = "" then "Error" else text) s.source.length
  | .ifThen .. | .elseIf .. | .otherwise .. => return .finished none

/-- Runs a part of a chain of conditions; the flag tells whether it was chosen. -/
def branch (setup : Setup α) (parts : Parts α) (calls : Nat) (scope : Scope) (top report : Bool)
    (s : Statement) (keyword : Token) (tokens : List Token) (conditionSource : String)
    (body : List Statement) : Run α (Bool × Flow α) := do
  Run.debug setup 1 (fun _ => s.kind.label ++ ": " ++ s.source)
  if ← condition setup parts calls scope s keyword tokens conditionSource then
    if top then
      Run.record s [.label "the code will be executed if", .label conditionSource]
    return (true, ← inChild parts calls scope report body)
  else return (false, .finished none)

def lastBranch (setup : Setup α) (parts : Parts α) (calls : Nat) (scope : Scope)
    (top report : Bool) (s : Statement) (body : List Statement) : Run α (Bool × Flow α) := do
  Run.debug setup 1 (fun _ => s.kind.label ++ ": " ++ s.source)
  if top then Run.record s [.label "the code will be executed otherwise"]
  return (true, ← inChild parts calls scope report body)

/-- Runs a statement of a block. `matched` tells whether a part of the chain of conditions before
it was chosen; parts after that one are passed over. -/
def step (setup : Setup α) (parts : Parts α) (fuel calls : Nat) (scope : Scope)
    (top report matched : Bool) (s : Statement) : Run α (Bool × Flow α) :=
  match s with
  | .ifThen _ keyword tokens body source =>
    branch setup parts calls scope top report s keyword tokens source body
  | .elseIf _ keyword tokens body source =>
    if matched then pure (matched, .finished none)
    else branch setup parts calls scope top report s keyword tokens source body
  | .otherwise _ _ body =>
    if matched then pure (matched, .finished none)
    else lastBranch setup parts calls scope top report s body
  | s => do
    let flow ← statement setup parts fuel calls scope top report s
    return (matched, flow)

/-- Runs statements one after the other; `last` is the last value so far. -/
def steps (setup : Setup α) (parts : Parts α) (fuel calls : Nat) (scope : Scope)
    (top report : Bool) : List Statement → Bool → Option α → Run α (Flow α)
  | [], _, last => return .finished last
  | s :: rest, matched, last => do
    if top then modify (fun m => { m with statement := s.source })
    match ← Run.watched setup scope (step setup parts fuel calls scope top report matched s) with
    | (matched, .finished none) =>
      steps setup parts fuel calls scope top report rest matched last
    | (matched, .finished (some v)) =>
      steps setup parts fuel calls scope top report rest matched (some v)
    | (_, flow) => return flow

def blockWith (setup : Setup α) (parts : Parts α) (fuel calls : Nat) (scope : Scope)
    (statements : List Statement) (top report : Bool) : Run α (Flow α) :=
  steps setup parts fuel calls scope top report statements false none

mutual

def expression (setup : Setup α) :
    Nat → Nat → Scope → List Token → Int → Run α α
  | 0, _, _, _, _ => throw (.defect .outOfFuel)
  | fuel + 1, calls, scope, tokens, offset =>
    Run.watched setup scope
      (expressionWith setup ⟨expression setup fuel, block setup fuel⟩ calls scope tokens offset)

def block (setup : Setup α) :
    Nat → Nat → Scope → List Statement → Bool → Bool → Run α (Flow α)
  | 0, _, _, _, _, _ => throw (.defect .outOfFuel)
  | fuel + 1, calls, scope, statements, top, report =>
    blockWith setup ⟨expression setup fuel, block setup fuel⟩ fuel calls scope statements top report

end

def program (setup : Setup α) (fuel : Nat) (body : List Statement) : Run α Unit := do
  let _ ← block setup fuel setup.callLimit Machine.globals body true true

end Abacus.Eval
