import Abacus.Eval.Statement
import Abacus.Statement.Parse
import Abacus.System.Bignumber
import Abacus.System.Complex
import Abacus.System.Decimal
import Abacus.System.Fraction

/-! Runs of a script from its source, with the texts given to `input`. A script that needs a text
stops; it is run again from the beginning when there is one more. -/

namespace Abacus

inductive SystemName where
  | bignumber
  | fraction
  | decimal
  | complex
  deriving DecidableEq

namespace SystemName

def all : List SystemName := [.bignumber, .fraction, .decimal, .complex]

def name : SystemName → String
  | .bignumber => "bignumber"
  | .fraction => "fraction"
  | .decimal => "decimal"
  | .complex => "complex"

def ofName? (s : String) : Option SystemName :=
  all.find? (fun n => n.name == s)

end SystemName

/-- What a run is asked for, and two limits of the host: how deep calls may be nested, and how many
digits an integer may have that it converts. -/
structure Options where
  system : String := "bignumber"
  strict : Bool := false
  precision : Int := 20
  places : Int := 20
  seed : Int := 0
  debugLevel : Int := 0
  callLimit : Nat := 1000
  digitLimit : Option Nat := some 4300

/-- Why there is no number system for some options: its name is unknown, its precision is none, or its
places or its constants cannot be worked out. -/
inductive OptionError where
  | unknownSystem (name : String)
  | precision
  | wordSize
  | places
  | overflow
  | constants (f : Failure)
  deriving DecidableEq

def OptionError.message : OptionError → String
  | .unknownSystem name =>
    "Unknown backend " ++ Text.quoted name ++ "; expected one of " ++
      ", ".intercalate (SystemName.all.map SystemName.name)
  | .precision => "valid range for prec is [1, MAX_PREC]"
  | .wordSize => "Python int too large to convert to C ssize_t"
  | .places => "[<class 'decimal.InvalidOperation'>]"
  | .overflow => "[<class 'decimal.Overflow'>]"
  | .constants f => f.message

structure AnySystem where
  Value : Type
  system : NumberSystem Value

namespace Options

/-- The last place of quotients is the exponent of a number of the host's own precision. -/
def checkPlaces (places : Int) : Except OptionError Unit :=
  if 2000054 < places.natAbs then .error .places
  else if places < -999999 then .error .overflow
  else .ok ()

def checkPrecision (precision : Int) : Except OptionError Unit :=
  if precision < -9223372036854775808 ∨ 9223372036854775807 < precision then .error .wordSize
  else if precision < 1 ∨ (Decimal.limit : Int) < precision then .error .precision
  else .ok ()

/-- The constants of a number system have a text. -/
def checkConstants {α : Type} (constant : (Binary.Precision → Binary) → Except Failure α) :
    Except OptionError Unit := do
  let _ ← (constant Binary.pi).mapError .constants
  let _ ← (constant Binary.euler).mapError .constants

def pick (o : Options) : Except OptionError AnySystem :=
  match SystemName.ofName? o.system with
  | none => .error (.unknownSystem o.system)
  | some .bignumber =>
    (checkPlaces o.places *> checkConstants (Bignumber.constant? o.places)).map
      (fun _ => ⟨_, Bignumber.system o.places⟩)
  | some .fraction =>
    (checkConstants (Fraction.constant? o.precision o.digitLimit)).map
      (fun _ => ⟨_, Fraction.system o.precision o.digitLimit⟩)
  | some .decimal =>
    (checkPrecision o.precision).map (fun _ => ⟨_, Decimal.system o.precision.toNat⟩)
  | some .complex => .ok ⟨_, Complex.system o.precision o.digitLimit⟩

end Options

inductive Status where
  | ok
  | error (f : Fault)
  | needsInput (prompt : String)
  deriving DecidableEq

def Status.label : Status → String
  | .ok => "ok"
  | .error _ => "error"
  | .needsInput _ => "needs_input"

/-- What a run leaves behind; the log is missing if the script could not be read. -/
structure Outcome (α : Type) where
  status : Status
  records : List (Record α)
  log : Option (List String)

/-- A label, or the text of a value if it has one. -/
inductive Shown where
  | label (text : String)
  | value (text : Except Failure String)

def Shown.text : Shown → Except Failure String
  | .label text => .ok text
  | .value text => text

structure ShownRecord where
  kind : Statement.Kind
  source : String
  output : List Shown

structure Report where
  status : Status
  records : List ShownRecord
  log : Option (List String)

namespace Report

def line (r : ShownRecord) : Except Failure String := do
  let shown := " ".intercalate (← r.output.mapM Shown.text)
  return if r.kind = .print then shown else r.source ++ " => " ++ shown

def lines (r : Report) : Except Failure (List String) :=
  r.records.mapM line

end Report

namespace Outcome

variable {α : Type}

def showOutput (format : α → Except Failure String) : Output α → Shown
  | .label text => .label text
  | .value v => .value (format v)

def report (s : NumberSystem α) (o : Outcome α) : Report :=
  ⟨o.status,
    o.records.map (fun r => ⟨r.kind, r.source, r.output.map (showOutput s.format)⟩), o.log⟩

end Outcome

/-- Why a session has no result, with the log of the run if it began. -/
inductive RunError where
  | options (e : OptionError)
  | defect (d : Defect) (log : Option (List String))

def RunError.log : RunError → Option (List String)
  | .options _ => none
  | .defect _ log => log

def Machine.lines? {α : Type} (debugLevel : Int) (m : Machine α) : Option (List String) :=
  if 0 < debugLevel then some m.log.toList else none

/-- What is left of a run that ended in state `m`. -/
def Machine.outcome {α : Type} (debugLevel : Int) (status : Status) (m : Machine α) : Outcome α :=
  ⟨status, m.records.toList, m.lines? debugLevel⟩

def Outcome.ofResult {α : Type} (debugLevel : Int) :
    EStateM.Result Stop (Machine α) Unit → Except RunError (Outcome α)
  | .ok _ m => .ok (m.outcome debugLevel .ok)
  | .error (.fault f) m => .ok (m.outcome debugLevel (.error f))
  | .error (.input prompt) m => .ok (m.outcome debugLevel (.needsInput prompt))
  | .error (.defect d) m => .error (.defect d (m.lines? debugLevel))

/-- Runs the statements of a program with what a setup prescribes. -/
def Program.runIn {α : Type} (setup : Setup α) (fuel : Nat) (p : Program) (seed : Int)
    (inputs : List String) : Except RunError (Outcome α) :=
  let start := Machine.start setup.system (setup.system.resources seed inputs)
  Outcome.ofResult setup.debugLevel ((Eval.program setup fuel p.body).run start)

/-- How a program is run under options: blocks are remembered and nobody watches. -/
def Program.setup {α : Type} (s : NumberSystem α) (o : Options) (p : Program) : Setup α where
  system := s
  source := p.source
  strict := o.strict
  debugLevel := o.debugLevel
  callLimit := o.callLimit
  digitLimit := o.digitLimit
  remembers := true
  watches := false

def Program.run {α : Type} (s : NumberSystem α) (o : Options) (fuel : Nat) (p : Program)
    (inputs : List String) : Except RunError (Outcome α) :=
  p.runIn (p.setup s o) fuel o.seed inputs

/-- A script, or a program that was read before, and the texts given to it so far. -/
structure Session where
  source : String
  options : Options
  program : Option Program
  inputs : List String

namespace Session

def runWith {α : Type} (s : NumberSystem α) (fuel : Nat) (session : Session) :
    Except RunError (Outcome α) :=
  match session.program with
  | some p => p.run s session.options fuel session.inputs
  | none =>
    match Program.parse session.source session.options.strict with
    | .error f => .ok ⟨.error f, [], none⟩
    | .ok p => p.run s session.options fuel session.inputs

def run (fuel : Nat) (session : Session) : Except RunError Report :=
  match session.options.pick with
  | .error e => .error (.options e)
  | .ok any => (session.runWith any.system fuel).map (Outcome.report any.system)

def resume (session : Session) (text : String) : Session :=
  { session with inputs := session.inputs ++ [text] }

/-- The session after a run: a script that could be read is not read again. -/
def afterRun (session : Session) : Session :=
  match session.program, Program.parse session.source session.options.strict with
  | none, .ok p => { session with program := some p }
  | _, _ => session

/-- What is asked of a session: to run, or to run with one more text. -/
inductive Step where
  | run
  | resume (text : String)
  deriving DecidableEq

def take (session : Session) : Step → Session
  | .run => session
  | .resume text => session.resume text

/-- The results of steps that are taken one after the other. -/
def play {α : Type} (s : NumberSystem α) (fuel : Nat) :
    Session → List Step → List (Except RunError (Outcome α))
  | _, [] => []
  | session, step :: rest =>
    let asked := session.take step
    asked.runWith s fuel :: asked.afterRun.play s fuel rest

end Session

end Abacus
