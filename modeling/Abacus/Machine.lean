import Abacus.Fault
import Abacus.Scope
import Abacus.Statement.Basic
import Abacus.System.Basic

/-! The state of a running script, and how a run can stop. -/

namespace Abacus

/-- A function of the script. It remembers the scope in which it was defined. -/
structure Function where
  name : String
  parameters : List String
  body : List Token
  scope : Scope

inductive Binding (α : Type) where
  | number (value : α) (constant : Bool)
  | builtin (name : String) (arity : Option Nat)
  | function (f : Function)

namespace Binding

variable {α : Type}

def isFunction : Binding α → Bool
  | .number .. => false
  | _ => true

/-- A constant cannot be bound again; built-in functions are constants. -/
def isConstant : Binding α → Bool
  | .number _ constant => constant
  | .builtin .. => true
  | .function _ => false

end Binding

inductive Output (α : Type) where
  | label (text : String)
  | value (v : α)

structure Record (α : Type) where
  kind : Statement.Kind
  source : String
  output : List (Output α)

/-- Why a run has no result. A literal without a number, an operator without a precedence and an
expression without operands occur only in trees made by hand, and in hosts that do not convert every
integer; a line for those who debug may have no text. -/
inductive Defect where
  | literal (f : Failure)
  | operator (value : String)
  | noOperand
  | unshown (f : Failure)
  | outOfFuel
  deriving DecidableEq

inductive Stop where
  | fault (f : Fault)
  | input (prompt : String)
  | defect (d : Defect)
  deriving DecidableEq

/-- A failure of the number system becomes a fault, its message with a capital letter; a missing text
is asked for. -/
def Stop.ofFailure (offset length : Int) : Failure → Stop
  | .inputRequired => .input ""
  | f => .fault ⟨offset, Text.capitalized f.message, length⟩

/-- How a run stops at a literal that is no number. -/
def Stop.ofLiteral : Failure → Stop
  | .inputRequired => .input ""
  | f => .defect (.literal f)

/-- The scope in which a statement or an expression is evaluated and the frames at that time. -/
structure Moment (α : Type) where
  scope : Scope
  frames : Frames (Binding α)

/-- The state of a run. `statement` is the text of the statement of the script that is running,
`blocks` holds the blocks inside expressions that were read so far, by their place, and `history`
the moments that were noted so far, the last first. -/
structure Machine (α : Type) where
  frames : Frames (Binding α)
  records : Array (Record α)
  blocks : List ((Int × Int) × List Statement)
  statement : String
  log : Array String
  resources : Resources α
  history : List (Moment α)

/-- A computation of a running script. What was done before it stops stays done. -/
abbrev Run (α β : Type) := EStateM Stop (Machine α) β

/-- What stays the same during a run. -/
structure Setup (α : Type) where
  system : NumberSystem α
  source : String
  strict : Bool
  debugLevel : Int
  /-- How deep calls of script functions may be nested before the stack of the host is full. -/
  callLimit : Nat
  /-- The most digits of an integer that the host converts, if there is such a number. -/
  digitLimit : Option Nat
  /-- Whether blocks inside expressions are read only once. -/
  remembers : Bool
  /-- Whether the beginning and the end of every evaluation are noted. -/
  watches : Bool

namespace Machine

variable {α : Type}

def rootFrame (s : NumberSystem α) : List (String × Binding α) :=
  s.constants.map (fun (name, v) => (name, .number v true)) ++
    s.builtins.map (fun b => (b.name, .builtin b.name b.arity))

/-- The state before a run: the root scope and the scope of the script inside it. -/
def start (s : NumberSystem α) (resources : Resources α) : Machine α where
  frames := ⟨#[rootFrame s, []]⟩
  records := #[]
  blocks := []
  statement := ""
  log := #[]
  resources := resources
  history := []

def globals : Scope := [1, 0]

end Machine

namespace Run

variable {α : Type}

def fail {β : Type} (offset : Int) (message : String) (length : Int) : Run α β :=
  throw (.fault ⟨offset, message, length⟩)

def failAt {β : Type} (t : Token) (message : String) : Run α β :=
  fail t.index message t.length

def ofExcept {β : Type} : Except Fault β → Run α β
  | .ok x => pure x
  | .error f => throw (.fault f)

def orStop {β : Type} : Except Stop β → Run α β
  | .ok x => pure x
  | .error e => throw e

def ofResult {β : Type} (t : Token) (x : Except Failure β) : Run α β :=
  orStop (x.mapError (Stop.ofFailure t.index t.length))

def lookup (scope : Scope) (name : String) : Run α (Option (Binding α)) := do
  return (← get).frames.get scope name

def find (scope : Scope) (name : String) : Run α (Option (Nat × Binding α)) := do
  return (← get).frames.find scope name

def child (scope : Scope) : Run α Scope :=
  modifyGet (fun m =>
    let (frames, made) := m.frames.child scope
    (made, { m with frames := frames }))

def declare (frame : Nat) (name : String) (b : Binding α) : Run α Unit :=
  modify (fun m => { m with frames := m.frames.declare frame name b })

def declareIn (scope : Scope) (name : String) (b : Binding α) : Run α Unit :=
  modify (fun m => { m with frames := m.frames.declareIn scope name b })

def record (s : Statement) (output : List (Output α)) : Run α Unit :=
  modify (fun m => { m with records := m.records.push ⟨s.kind, s.source, output⟩ })

/-- Writes a line for those who debug at `level` or above. -/
def debug (setup : Setup α) (level : Int) (line : Unit → String) : Run α Unit :=
  if level ≤ setup.debugLevel then modify (fun m => { m with log := m.log.push (line ()) })
  else pure ()

/-- Writes a line for those who debug at `level` or above, if it has a text. -/
def debugText (setup : Setup α) (level : Int) (line : Unit → Except Failure String) : Run α Unit :=
  if level ≤ setup.debugLevel then
    match line () with
    | .ok text => debug setup level (fun _ => text)
    | .error f => throw (.defect (.unshown f))
  else pure ()

def note (scope : Scope) (m : Machine α) : Machine α :=
  { m with history := ⟨scope, m.frames⟩ :: m.history }

/-- Evaluates in `scope` and notes the beginning and the end, also when it stops. -/
def noted {β : Type} (scope : Scope) (x : Run α β) : Run α β := fun m =>
  match x (note scope m) with
  | .ok v m => .ok v (note scope m)
  | .error e m => .error e (note scope m)

def watched {β : Type} (setup : Setup α) (scope : Scope) (x : Run α β) : Run α β :=
  if setup.watches then noted scope x else x

/-- Runs a built-in function; what it draws on is part of the state. -/
def builtin (b : Builtin α) (args : List α) : Run α (Except Failure α) :=
  modifyGet (fun m =>
    match b.run args m.resources with
    | .ok v r => (.ok v, { m with resources := r })
    | .error f r => (.error f, { m with resources := r }))

/-- The statements of a block inside an expression, from the place `key`. -/
def block (setup : Setup α) (key : Int × Int) (read : Except Fault (List Statement)) :
    Run α (List Statement) := do
  let known := (← get).blocks
  match if setup.remembers then known.lookup key else none with
  | some body => return body
  | none =>
    let body ← ofExcept read
    modify (fun m => { m with blocks := (key, body) :: m.blocks })
    return body

end Run

end Abacus
